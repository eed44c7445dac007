import Cfmd.Durability.RelationMutation

/-! The durable codec of relational queries, `encode_rel_expr` and
`decode_rel_expr`: a tag byte, the inputs one level deeper, and then the other
parts in a fixed order. Both sides count the levels alike, so that every query
that can be written can be read. -/

namespace Cfmd.Query

inductive OrderComparison
  | less
  | lessOrEqual
  | greater
  | greaterOrEqual
  deriving DecidableEq, Repr

inductive OrderDirection
  | ascending
  | descending
  deriving DecidableEq, Repr

inductive AggregateSpec
  | count (resultEquivalence : SemanticId)
  | exactF64Sum (valueColumn : UInt64) (resultEquivalence : SemanticId)

inductive RelExpr
  | scan (relation : SemanticId)
  | filterEqConst (input : RelExpr) (column : UInt64) (value : Value) (equivalence : SemanticId)
  | filterOrderConst (input : RelExpr) (column : UInt64) (value : Value) (ordering : SemanticId)
      (comparison : OrderComparison)
  | filterEqColumns (input : RelExpr) (leftColumn rightColumn : UInt64) (equivalence : SemanticId)
  | project (input : RelExpr) (columns : List UInt64)
  | joinEq (left right : RelExpr) (leftColumn rightColumn : UInt64) (equivalence : SemanticId)
  | difference (left right : RelExpr)
  | union (left right : RelExpr)
  | antiJoin (left right : RelExpr) (leftColumn rightColumn : UInt64) (equivalence : SemanticId)
  | distinct (input : RelExpr) (columnEquivalences : List SemanticId)
  | group (input : RelExpr) (groupColumns : List UInt64) (groupEquivalences : List SemanticId)
      (aggregate : AggregateSpec)
  | topKWithTies (input : RelExpr) (column : UInt64) (ordering : SemanticId)
      (direction : OrderDirection) (k : UInt64)
  | promoteToBag (input : RelExpr)

/-- The constants of a query keep the order of their product fields. -/
def RelExpr.Ordered : RelExpr → Prop
  | .scan _ => True
  | .filterEqConst input _ value _ | .filterOrderConst input _ value _ _ =>
    input.Ordered ∧ value.Ordered
  | .filterEqColumns input _ _ _ | .project input _ | .distinct input _ | .group input _ _ _
  | .topKWithTies input _ _ _ _ | .promoteToBag input => input.Ordered
  | .joinEq left right _ _ _ | .difference left right | .union left right
  | .antiJoin left right _ _ _ => left.Ordered ∧ right.Ordered

end Cfmd.Query

namespace Cfmd.Durability
open Query Lib

def maxQueryDepth : ℕ := 128

def pushUsize (value : UInt64) : Except CodecError (List UInt8) := .ok (pushU64 value)

def encodeSemanticIds (ids : List SemanticId) : Except CodecError (List UInt8) :=
  pushSequence (fun id => .ok (pushU128 id)) ids

def encodeAggregate : AggregateSpec → Except CodecError (List UInt8)
  | .count resultEquivalence => pushAll [.ok [0], .ok (pushU128 resultEquivalence)]
  | .exactF64Sum valueColumn resultEquivalence =>
    pushAll [.ok [1], pushUsize valueColumn, .ok (pushU128 resultEquivalence)]

def orderComparisonTag : OrderComparison → UInt8
  | .less => 0
  | .lessOrEqual => 1
  | .greater => 2
  | .greaterOrEqual => 3

def orderDirectionTag : OrderDirection → UInt8
  | .ascending => 0
  | .descending => 1

/-- The arms of `encode_rel_expr`, with this many levels left below the depth
limit. -/
def encodeRelExprWithin : ℕ → RelExpr → Except CodecError (List UInt8)
  | 0, _ => .error .valueNestingTooDeep
  | levels + 1, expr =>
    match expr with
    | .scan relation => pushAll [.ok [0], .ok (pushU128 relation)]
    | .filterEqConst input column value equivalence =>
      pushAll [.ok [1], encodeRelExprWithin levels input, pushUsize column, encodeValue value 0,
        .ok (pushU128 equivalence)]
    | .filterOrderConst input column value ordering comparison =>
      pushAll [.ok [11], encodeRelExprWithin levels input, pushUsize column, encodeValue value 0,
        .ok (pushU128 ordering), .ok [orderComparisonTag comparison]]
    | .filterEqColumns input leftColumn rightColumn equivalence =>
      pushAll [.ok [8], encodeRelExprWithin levels input, pushUsize leftColumn,
        pushUsize rightColumn, .ok (pushU128 equivalence)]
    | .project input columns =>
      pushAll [.ok [2], encodeRelExprWithin levels input, pushSequence pushUsize columns]
    | .joinEq left right leftColumn rightColumn equivalence =>
      pushAll [.ok [3], encodeRelExprWithin levels left, encodeRelExprWithin levels right,
        pushUsize leftColumn, pushUsize rightColumn, .ok (pushU128 equivalence)]
    | .difference left right =>
      pushAll [.ok [9], encodeRelExprWithin levels left, encodeRelExprWithin levels right]
    | .union left right =>
      pushAll [.ok [12], encodeRelExprWithin levels left, encodeRelExprWithin levels right]
    | .antiJoin left right leftColumn rightColumn equivalence =>
      pushAll [.ok [10], encodeRelExprWithin levels left, encodeRelExprWithin levels right,
        pushUsize leftColumn, pushUsize rightColumn, .ok (pushU128 equivalence)]
    | .distinct input columnEquivalences =>
      pushAll [.ok [4], encodeRelExprWithin levels input, encodeSemanticIds columnEquivalences]
    | .group input groupColumns groupEquivalences aggregate =>
      pushAll [.ok [5], encodeRelExprWithin levels input, pushSequence pushUsize groupColumns,
        encodeSemanticIds groupEquivalences, encodeAggregate aggregate]
    | .topKWithTies input column ordering direction k =>
      pushAll [.ok [6], encodeRelExprWithin levels input, pushUsize column,
        .ok (pushU128 ordering), .ok [orderDirectionTag direction], pushUsize k]
    | .promoteToBag input => pushAll [.ok [7], encodeRelExprWithin levels input]

def encodeRelExpr (expr : RelExpr) (depth : ℕ) : Except CodecError (List UInt8) :=
  encodeRelExprWithin (maxQueryDepth + 1 - depth) expr

namespace Source

def aggregate : Decoder String AggregateSpec := do
  match ← u8 with
  | 0 => return .count (← u128)
  | 1 => return .exactF64Sum (← u64) (← u128)
  | _ => throw "unknown durable aggregate tag"

def orderComparison : Decoder String OrderComparison := do
  match ← u8 with
  | 0 => return .less
  | 1 => return .lessOrEqual
  | 2 => return .greater
  | 3 => return .greaterOrEqual
  | _ => throw "invalid order comparison"

def orderDirection : Decoder String OrderDirection := do
  match ← u8 with
  | 0 => return .ascending
  | 1 => return .descending
  | _ => throw "invalid order direction"

/-- The arms of `decode_rel_expr` after the depth check and the tag; `child`
reads a query one level deeper. -/
def relExprArm (child : Decoder String RelExpr) : UInt8 → Decoder String RelExpr
  | 0 => return .scan (← u128)
  | 1 => return .filterEqConst (← child) (← u64) (← value 0) (← u128)
  | 2 => return .project (← child) (← sequence u64)
  | 3 => return .joinEq (← child) (← child) (← u64) (← u64) (← u128)
  | 4 => return .distinct (← child) (← sequence u128)
  | 5 => return .group (← child) (← sequence u64) (← sequence u128) (← aggregate)
  | 6 => return .topKWithTies (← child) (← u64) (← u128) (← orderDirection) (← u64)
  | 7 => return .promoteToBag (← child)
  | 8 => return .filterEqColumns (← child) (← u64) (← u64) (← u128)
  | 9 => return .difference (← child) (← child)
  | 10 => return .antiJoin (← child) (← child) (← u64) (← u64) (← u128)
  | 11 => return .filterOrderConst (← child) (← u64) (← value 0) (← u128) (← orderComparison)
  | 12 => return .union (← child) (← child)
  | _ => throw "unknown durable relation expression tag"

def relExprWithin : ℕ → Decoder String RelExpr
  | 0 => throw "query nesting exceeds hard limit"
  | levels + 1 => do relExprArm (relExprWithin levels) (← u8)

end Source

def decodeRelExpr (depth : ℕ) : Decoder String RelExpr :=
  Source.relExprWithin (maxQueryDepth + 1 - depth)

namespace Source

theorem u8_reads (tag : UInt8) : Restores (.ok [tag] : Except CodecError _) u8 tag :=
  .of_parses u8_parses fun _ h => by cases h; rfl

theorem u64_reads (x : UInt64) : Restores (pushUsize x) u64 x :=
  .of_parses u64_parses fun _ h => by cases h; rfl

theorem u128_reads (id : Id128) : Restores (.ok (pushU128 id) : Except CodecError _) u128 id :=
  .of_parses u128_parses fun _ h => by cases h; rfl

theorem value_reads {v : Value} (hv : v.Ordered) : Restores (encodeValue v 0) (value 0) v :=
  .of_parses (value_parses 0) fun _ h => ⟨hv, h⟩

theorem sequence_reads {α : Type} {d : Decoder String α} {W : α → List UInt8 → Prop}
    {enc : α → Except CodecError (List UInt8)} (hd : Parses d W)
    (hW : ∀ a b, enc a = .ok b → W a b) (as : List α) :
    Restores (pushSequence enc as) (sequence d) as :=
  .of_parses (sequence_parses hd) fun _ h =>
    (pushSequence_eq_ok.mp h).mono fun a _ b hb => hW a b hb

theorem columns_reads (columns : List UInt64) :
    Restores (pushSequence pushUsize columns) (sequence u64) columns :=
  sequence_reads u64_parses (fun _ _ h => by cases h; rfl) columns

theorem semanticIds_reads (ids : List SemanticId) :
    Restores (encodeSemanticIds ids) (sequence u128) ids :=
  sequence_reads u128_parses (fun _ _ h => by cases h; rfl) ids

theorem orderComparison_reads (comparison : OrderComparison) :
    Restores (.ok [orderComparisonTag comparison] : Except CodecError _) orderComparison
      comparison := by
  intro bytes hbytes suffix
  cases hbytes
  apply Decoder.bind_eq_ok.mpr
  refine ⟨_, suffix, u8_reads _ _ rfl suffix, ?_⟩
  cases comparison <;> rfl

theorem orderDirection_reads (direction : OrderDirection) :
    Restores (.ok [orderDirectionTag direction] : Except CodecError _) orderDirection
      direction := by
  intro bytes hbytes suffix
  cases hbytes
  apply Decoder.bind_eq_ok.mpr
  refine ⟨_, suffix, u8_reads _ _ rfl suffix, ?_⟩
  cases direction <;> rfl

theorem aggregate_reads (spec : AggregateSpec) :
    Restores (encodeAggregate spec) aggregate spec := by
  cases spec with
  | count e => exact (u8_reads 0).cons ((u128_reads e).cons (.nil _))
  | exactF64Sum c e => exact (u8_reads 1).cons ((u64_reads c).cons ((u128_reads e).cons (.nil _)))

theorem relExprWithin_reads (levels : ℕ) (expr : RelExpr) (hexpr : expr.Ordered) :
    Restores (encodeRelExprWithin levels expr) (relExprWithin levels) expr := by
  induction levels generalizing expr with
  | zero => exact nofun
  | succ levels ih =>
    cases expr with
    | scan relation => exact (u8_reads 0).cons ((u128_reads relation).cons (.nil _))
    | filterEqConst input column v equivalence =>
      exact (u8_reads 1).cons ((ih input hexpr.1).cons ((u64_reads column).cons
        ((value_reads hexpr.2).cons ((u128_reads equivalence).cons (.nil _)))))
    | filterOrderConst input column v ordering comparison =>
      exact (u8_reads 11).cons ((ih input hexpr.1).cons ((u64_reads column).cons
        ((value_reads hexpr.2).cons ((u128_reads ordering).cons
          ((orderComparison_reads comparison).cons (.nil _))))))
    | filterEqColumns input leftColumn rightColumn equivalence =>
      exact (u8_reads 8).cons ((ih input hexpr).cons ((u64_reads leftColumn).cons
        ((u64_reads rightColumn).cons ((u128_reads equivalence).cons (.nil _)))))
    | project input columns =>
      exact (u8_reads 2).cons ((ih input hexpr).cons ((columns_reads columns).cons (.nil _)))
    | joinEq left right leftColumn rightColumn equivalence
    | antiJoin left right leftColumn rightColumn equivalence =>
      exact (u8_reads _).cons ((ih left hexpr.1).cons ((ih right hexpr.2).cons
        ((u64_reads leftColumn).cons ((u64_reads rightColumn).cons
          ((u128_reads equivalence).cons (.nil _))))))
    | difference left right | union left right =>
      exact (u8_reads _).cons ((ih left hexpr.1).cons ((ih right hexpr.2).cons (.nil _)))
    | distinct input columnEquivalences =>
      exact (u8_reads 4).cons ((ih input hexpr).cons
        ((semanticIds_reads columnEquivalences).cons (.nil _)))
    | group input groupColumns groupEquivalences spec =>
      exact (u8_reads 5).cons ((ih input hexpr).cons ((columns_reads groupColumns).cons
        ((semanticIds_reads groupEquivalences).cons ((aggregate_reads spec).cons (.nil _)))))
    | topKWithTies input column ordering direction k =>
      exact (u8_reads 6).cons ((ih input hexpr).cons ((u64_reads column).cons
        ((u128_reads ordering).cons ((orderDirection_reads direction).cons
          ((u64_reads k).cons (.nil _))))))
    | promoteToBag input => exact (u8_reads 7).cons ((ih input hexpr).cons (.nil _))

end Source

end Cfmd.Durability
