import Cfmd.Protocol.Wire

/-! What the encoder writes, the decoder reads back: the same message, with the same nodes
counted on both sides. The fields of a product are read back in the order they were
written, so a decoder that collects them by id gives back a product that is a map. -/

namespace Cfmd.Protocol
open Lib List

variable {limits : WireLimits} {order : FieldOrder} {depth : ℕ} {α : Type}
  {arm : ℕ → UInt8 → Wire α} {d : ℕ → Wire α} {s s' : List UInt8 × ℕ} {a : α}

abbrev Writes {α : Type} (limits : WireLimits) (e : Wire Unit) (d : ℕ → Wire α) (a : α) : Prop :=
  Emits limits.maxPayloadBytes.toNat e d a

/-! ### Numbers and texts -/

theorem extend_eq_ok {bytes : List UInt8} :
    Encoder.extend limits bytes s = .ok ((), s') ↔
      s.1.length + bytes.length ≤ limits.maxPayloadBytes.toNat ∧ s' = (s.1 ++ bytes, s.2) := by
  unfold Encoder.extend
  dsimp only
  split
  · exact ⟨nofun, fun h => by omega⟩
  constructor
  · intro h
    cases h
    exact ⟨by omega, rfl⟩
  · rintro ⟨_, rfl⟩
    rfl

theorem take_eq_ok {n : ℕ} {bytes : List UInt8} {t t' : List UInt8 × ℕ} :
    Decoder.take n t = .ok (bytes, t') ↔ bytes.length = n ∧ t.1 = bytes ++ t'.1 ∧ t'.2 = t.2 := by
  unfold Decoder.take
  obtain ⟨rest, nodes⟩ := t
  dsimp only
  split
  · rename_i hshort
    refine ⟨nofun, ?_⟩
    rintro ⟨rfl, rfl, _⟩
    rw [length_append] at hshort
    omega
  · constructor
    · intro h
      cases h
      exact ⟨length_take_of_le (by omega), (take_append_drop n rest).symm, rfl⟩
    · rintro ⟨rfl, rfl, rfl⟩
      rw [take_left, drop_left]

theorem extend_emits (bytes : List UInt8) :
    Writes limits (Encoder.extend limits bytes) (fun _ => Decoder.take bytes.length) bytes := by
  intro s s' h _
  obtain ⟨hfits, rfl⟩ := extend_eq_ok.mp h
  rw [← length_append] at hfits
  exact ⟨hfits, bytes, rfl, fun fuel rest _ => take_eq_ok.mpr ⟨rfl, rfl, rfl⟩⟩

theorem number_emits {n : ℕ} {ofNat : ℕ → α} {x : ℕ} (hlt : x < 256 ^ n) :
    Writes limits (Encoder.extend limits (toBeBytes n x)) (fun _ => Decoder.number n ofNat) (ofNat x) := by
  have hbytes := (@extend_emits limits (toBeBytes n x)).map (f := fun bytes => ofNat (fromBeBytes bytes))
  rw [length_toBeBytes, fromBeBytes_toBeBytes_of_lt hlt] at hbytes
  exact hbytes

theorem u8_emits (x : UInt8) : Writes limits (Encoder.u8 limits x) (fun _ => Decoder.u8) x := by
  have h := @number_emits limits UInt8 1 UInt8.ofNat x.toNat x.toNat_lt
  rw [UInt8.ofNat_toNat] at h
  exact h

theorem u32_emits (x : UInt32) : Writes limits (Encoder.u32 limits x) (fun _ => Decoder.u32) x := by
  have h := @number_emits limits UInt32 4 UInt32.ofNat x.toNat x.toNat_lt
  rw [UInt32.ofNat_toNat] at h
  exact h

theorem u64_emits (x : UInt64) : Writes limits (Encoder.u64 limits x) (fun _ => Decoder.u64) x := by
  have h := @number_emits limits UInt64 8 UInt64.ofNat x.toNat x.toNat_lt
  rw [UInt64.ofNat_toNat] at h
  exact h

theorem i64_emits (x : Int64) : Writes limits (Encoder.i64 limits x) (fun _ => Decoder.i64) x := by
  have h := @number_emits limits Int64 8 (fun x => Int64.ofUInt64 (UInt64.ofNat x))
    x.toUInt64.toNat x.toUInt64.toNat_lt
  rw [UInt64.ofNat_toNat] at h
  exact h

theorem u128_emits (x : Id128) : Writes limits (Encoder.u128 limits x) (fun _ => Decoder.u128) x := by
  have h := @number_emits limits Id128 16 (fun x => ⟨BitVec.ofNat 128 x⟩) x.value.toNat x.value.isLt
  rw [BitVec.ofNat_toNat] at h
  exact h

theorem toNat_ofNat {x : ℕ} (h : x < 2 ^ 32) : (UInt32.ofNat x).toNat = x := by
  rw [UInt32.toNat_ofNat', Nat.mod_eq_of_lt h]

theorem usize_emits (x : ℕ) : Writes limits (Encoder.usize limits x) (fun _ => Decoder.usize) x := by
  unfold Encoder.usize
  split_ifs with hlarge
  · exact Emits.throw _
  · apply (u32_emits (UInt32.ofNat x)).last
    intro _
    rw [toNat_ofNat (Nat.lt_of_not_le hlarge)]

theorem bool_emits (x : Bool) : Writes limits (Encoder.bool limits x) (fun _ => Decoder.bool) x := by
  cases x with
  | false | true => exact (u8_emits _).last fun _ => rfl

theorem collectionLen_emits (len : ℕ) :
    Writes limits (Encoder.collectionLen limits len) (fun _ => Decoder.collectionLen limits) len := by
  unfold Encoder.collectionLen
  split_ifs with hlarge hlimit
  · exact Emits.throw _
  · exact Emits.throw _
  · have hvalue := toNat_ofNat (Nat.lt_of_not_le hlarge)
    apply (u32_emits (UInt32.ofNat len)).last
    intro _
    rw [if_neg (by rw [UInt32.lt_iff_toNat_lt, hvalue]; exact hlimit), hvalue]

theorem fromUtf8_eq (x : String) : Decoder.fromUtf8 x.toByteArray.data.toList = pure x := by
  have htext : String.fromUTF8? ⟨x.toByteArray.data.toList.toArray⟩ = some x := by
    exact dif_pos x.isValidUTF8
  unfold Decoder.fromUtf8
  rw [htext]

theorem string_emits (x : String) :
    Writes limits (Encoder.string limits x) (fun _ => Decoder.string limits) x := by
  unfold Encoder.string
  dsimp only
  split_ifs with hlarge hlimit
  · exact Emits.throw _
  · exact Emits.throw _
  · have hvalue := toNat_ofNat (Nat.lt_of_not_le hlarge)
    apply (u32_emits _).bind
    rw [if_neg (by rw [UInt32.lt_iff_toNat_lt, hvalue]; exact hlimit), hvalue]
    exact (extend_emits _).last fun _ => fromUtf8_eq x

theorem snapshotTarget_emits (x : SnapshotTarget) :
    Writes limits (Encoder.snapshotTarget limits x) (fun _ => Decoder.snapshotTarget) x := by
  cases x with
  | head => exact (u8_emits 0).last fun _ => rfl
  | revision revision => exact (u8_emits 1).bind (u64_emits revision).map
  | contractHead schemaRevision => exact (u8_emits 2).bind (u64_emits schemaRevision).map

theorem sequence_emits {enc : α → Wire Unit} {items : List α}
    (h : ∀ a ∈ items, Writes limits (enc a) d a) :
    Writes limits (Encoder.sequence limits enc items) (fun fuel => Decoder.sequence limits (d fuel)) items :=
  (collectionLen_emits items.length).bind (Emits.times h)

/-! ### Values -/

def FieldOrder.Keeps (order : FieldOrder) (value : ProtocolValue) : Prop := match order with
  | byId => value.Ordered
  | asListed => True

theorem FieldOrder.Keeps.child {value child : ProtocolValue} (h : order.Keeps value)
    (hchild : child ∈ value.children) : order.Keeps child := by
  cases order with
  | byId => exact (Value.ordered_iff.mp h).2 child hchild
  | asListed => trivial

theorem insertField_append {fields : Fields} {field : SemanticId} {value : ProtocolValue}
    (h : ∀ entry ∈ fields, compare entry.1 field = .lt) :
    insertField fields field value = some (fields ++ [(field, value)]) := by
  induction fields with
  | nil => rfl
  | cons entry rest ih =>
    rw [forall_mem_cons] at h
    have hgt : compare field entry.1 = .gt := Std.OrientedCmp.gt_of_lt h.1
    rw [insertField, hgt, ih h.2]
    rfl

theorem FieldOrder.Keeps.insert {fields done rest : Fields} {entry : SemanticId × ProtocolValue}
    (h : order.Keeps (.product fields)) (hfields : fields = done ++ entry :: rest) :
    order.insert done entry.1 entry.2 = some (done ++ [entry]) := by
  cases order with
  | asListed => rfl
  | byId =>
    have hsorted := ascending_iff_pairwise.mp (Value.ordered_iff.mp h).1
    rw [Value.fields, hfields, pairwise_append] at hsorted
    apply insertField_append
    intro other hother
    exact hsorted.2.2 other hother entry mem_cons_self

theorem productFields_emits {child : ℕ → Wire ProtocolValue} {all : Fields}
    (hkeeps : order.Keeps (.product all)) (fields done : Fields) (hall : all = done ++ fields)
    (h : ∀ entry ∈ fields, Writes limits (Encoder.value limits entry.2 depth) child entry.2) :
    Writes limits (Encoder.productFields limits fields depth)
      (fun fuel => Decoder.productFields order (child fuel) fields.length done) all := by
  induction fields generalizing done with
  | nil =>
    rw [append_nil] at hall
    rw [hall]
    exact Emits.pure done
  | cons entry rest ih =>
    rw [forall_mem_cons] at h
    have hrest := ih (done ++ [entry]) (by rw [hall, append_assoc]; rfl) h.2
    refine (u128_emits entry.1).bind (h.1.bind ?_)
    rw [hkeeps.insert hall]
    exact hrest

theorem values_eq_forM (values : List ProtocolValue) (depth : ℕ) :
    Encoder.values limits values depth = values.forM (Encoder.value limits · depth) := by
  induction values with
  | nil => rfl
  | cons value rest ih =>
    rw [Encoder.values, ih]
    rfl

theorem bagEntries_eq_forM (entries : List (ProtocolValue × UInt64)) (depth : ℕ) :
    Encoder.bagEntries limits entries depth = entries.forM (fun entry => do
      Encoder.value limits entry.1 depth
      Encoder.u64 limits entry.2) := by
  induction entries with
  | nil => rfl
  | cons entry rest ih =>
    rw [Encoder.bagEntries, ih, ← bind_assoc]
    rfl

theorem mapEntries_eq_forM (entries : List (ProtocolValue × ProtocolValue)) (depth : ℕ) :
    Encoder.mapEntries limits entries depth = entries.forM (fun entry => do
      Encoder.value limits entry.1 depth
      Encoder.value limits entry.2 depth) := by
  induction entries with
  | nil => rfl
  | cons entry rest ih =>
    rw [Encoder.mapEntries, ih, ← bind_assoc]
    rfl

section
variable {d : ℕ → Wire ProtocolValue}

theorem values_emits {values : List ProtocolValue}
    (h : ∀ value ∈ values, Writes limits (Encoder.value limits value depth) d value) :
    Writes limits (do
      Encoder.collectionLen limits values.length
      Encoder.values limits values depth)
      (fun fuel => Decoder.sequence limits (d fuel)) values := by
  rw [values_eq_forM]
  exact sequence_emits h

theorem bagEntries_emits {entries : List (ProtocolValue × UInt64)}
    (h : ∀ entry ∈ entries, Writes limits (Encoder.value limits entry.1 depth) d entry.1) :
    Writes limits (do
      Encoder.collectionLen limits entries.length
      Encoder.bagEntries limits entries depth)
      (fun fuel => Decoder.sequence limits do return (← d fuel, ← Decoder.u64)) entries := by
  rw [bagEntries_eq_forM]
  apply sequence_emits
  intro entry hmem
  exact (h entry hmem).bind (u64_emits entry.2).map

theorem mapEntries_emits {entries : List (ProtocolValue × ProtocolValue)}
    (h : ∀ entry ∈ entries, Writes limits (Encoder.value limits entry.1 depth) d entry.1 ∧
      Writes limits (Encoder.value limits entry.2 depth) d entry.2) :
    Writes limits (do
      Encoder.collectionLen limits entries.length
      Encoder.mapEntries limits entries depth)
      (fun fuel => Decoder.sequence limits do return (← d fuel, ← d fuel)) entries := by
  rw [mapEntries_eq_forM]
  apply sequence_emits
  intro entry hmem
  exact (h entry hmem).1.bind (h entry hmem).2.map

end

theorem enter_emits (depth : ℕ) : Writes limits (enter limits depth) (fun _ => enter limits depth) () := by
  intro s s' h hfits
  unfold enter at h ⊢
  dsimp only at h ⊢
  split_ifs at h ⊢ with hdepth hnodes
  cases h
  exact ⟨hfits, [], (append_nil _).symm, fun fuel rest _ => rfl⟩

theorem node_emits (depth : ℕ) (tag : UInt8) :
    Writes limits (do enter limits depth; Encoder.u8 limits tag) (fun _ => Decoder.node limits depth) tag :=
  (enter_emits depth).bind (u8_emits tag)

theorem length_node {tag : UInt8}
    (h : (do enter limits depth; Encoder.u8 limits tag : Wire Unit) s = .ok ((), s')) :
    s'.1.length ≠ s.1.length := by
  obtain ⟨⟨⟩, mid, henter, htag⟩ := Coder.bind_eq_ok.mp h
  unfold enter at henter
  dsimp only at henter
  split_ifs at henter
  cases henter
  obtain ⟨_, rfl⟩ := extend_eq_ok.mp htag
  rw [length_append]
  exact Nat.succ_ne_self _

section
variable {tag : UInt8} {e : Wire Unit}

section
variable (hd : ∀ fuel, d (fuel + 1) = Decoder.node limits depth >>= arm fuel)
include hd

theorem nested_emits (h : Writes limits e (fun fuel => arm fuel tag) a) :
    Writes limits (do enter limits depth; Encoder.u8 limits tag; e) d a := by
  rw [← bind_assoc]
  exact .descend hd (node_emits depth tag) (fun s s' => length_node) h

theorem nested_emits_leaf (h : ∀ fuel, arm fuel tag = pure a) :
    Writes limits (do enter limits depth; Encoder.u8 limits tag) d a := by
  have hpure : Writes limits (pure () : Wire Unit) (fun fuel => arm fuel tag) a := by
    simp only [h]
    exact Emits.pure a
  have hnode := nested_emits hd hpure
  rw [bind_pure_unit] at hnode
  exact hnode

end

end

theorem value_emits (value : ProtocolValue) (depth : ℕ) (hkeeps : order.Keeps value) :
    Writes limits (Encoder.value limits value depth) (fun fuel => Decoder.value limits order fuel depth)
      value := by
  induction value using Value.children_induction generalizing depth with
  | h value ih =>
    have hchild : ∀ child ∈ value.children, Writes limits (Encoder.value limits child (nextDepth depth))
        (fun fuel => Decoder.value limits order fuel (nextDepth depth)) child :=
      fun child hmem => ih child hmem _ (hkeeps.child hmem)
    have hd : ∀ fuel, Decoder.value limits order (fuel + 1) depth = Decoder.node limits depth >>=
        Decoder.valueArm limits order (Decoder.value limits order fuel (nextDepth depth)) :=
      fun _ => rfl
    cases value with
    | unit => exact nested_emits_leaf hd fun _ => rfl
    | bool x => exact nested_emits hd (bool_emits x).map
    | i64 x => exact nested_emits hd (i64_emits x).map
    | f64Bits x => exact nested_emits hd (u64_emits x).map
    | text x => exact nested_emits hd (string_emits x).map
    | liveEntityRef entityType id | historicalEntityId entityType id =>
      exact nested_emits hd ((u128_emits entityType).bind (u128_emits id).map)
    | product fields =>
      have hfields : ∀ entry ∈ fields, Writes limits (Encoder.value limits entry.2 (nextDepth depth))
          (fun fuel => Decoder.value limits order fuel (nextDepth depth)) entry.2 :=
        fun entry hmem => hchild entry.2 (mem_map_of_mem hmem)
      exact nested_emits hd ((collectionLen_emits fields.length).bind
        (productFields_emits hkeeps fields [] rfl hfields).map)
    | option value =>
      cases value with
      | none => exact nested_emits hd ((u8_emits 0).last fun _ => rfl)
      | some value =>
        exact nested_emits hd ((u8_emits 1).bind (hchild value mem_cons_self).map)
    | variant tag value =>
      exact nested_emits hd ((u128_emits tag).bind (hchild value mem_cons_self).map)
    | seq values => exact nested_emits hd (values_emits hchild).map
    | set equivalence elements =>
      exact nested_emits hd ((u128_emits equivalence).bind (values_emits hchild).map)
    | bag equivalence entries =>
      have hentries := fun (entry : ProtocolValue × UInt64) (hmem : entry ∈ entries) =>
        hchild entry.1 (mem_map_of_mem hmem)
      exact nested_emits hd ((u128_emits equivalence).bind (bagEntries_emits hentries).map)
    | map keyEquivalence entries =>
      have hpair : ∀ entry ∈ entries, ∀ child ∈ [entry.1, entry.2],
          child ∈ (Value.map keyEquivalence entries).children :=
        fun entry hmem child hchild => mem_flatMap.mpr ⟨entry, hmem, hchild⟩
      have hentries := fun entry (hmem : entry ∈ entries) =>
        And.intro (hchild entry.1 (hpair entry hmem _ mem_cons_self))
          (hchild entry.2 (hpair entry hmem _ (mem_cons_of_mem _ mem_cons_self)))
      exact nested_emits hd ((u128_emits keyEquivalence).bind (mapEntries_emits hentries).map)

/-! ### Queries -/

theorem orderDirection_emits (x : OrderDirection) :
    Writes limits (Encoder.orderDirection limits x) (fun _ => Decoder.orderDirection) x := by
  cases x with
  | ascending | descending => exact (u8_emits _).last fun _ => rfl

theorem columns_emits (columns : List ℕ) :
    Writes limits (Encoder.sequence limits (Encoder.usize limits) columns)
      (fun _ => Decoder.sequence limits Decoder.usize) columns :=
  sequence_emits fun column _ => usize_emits column

theorem ids_emits (ids : List Id128) :
    Writes limits (Encoder.sequence limits (Encoder.u128 limits) ids)
      (fun _ => Decoder.sequence limits Decoder.u128) ids :=
  sequence_emits fun id _ => u128_emits id

theorem query_emits (query : ProtocolQuery) (depth : ℕ)
    (hkeeps : ∀ value ∈ query.values, order.Keeps value) :
    Writes limits (Encoder.query limits query depth) (fun fuel => Decoder.query limits order fuel depth)
      query := by
  have hd : ∀ depth fuel, Decoder.query limits order (fuel + 1) depth =
      Decoder.node limits depth >>= Decoder.queryArm limits
        (Decoder.value limits order fuel (nextDepth depth))
        (Decoder.query limits order fuel (nextDepth depth)) :=
    fun _ _ => rfl
  induction query generalizing depth with
  | scan relation => exact nested_emits (hd depth) (u128_emits relation).map
  | filterEq input column value equivalence ih =>
    obtain ⟨hinput, hvalue⟩ := forall_mem_append.mp hkeeps
    exact nested_emits (hd depth) ((ih _ hinput).bind ((usize_emits column).bind
      ((value_emits value _ (hvalue value mem_cons_self)).bind (u128_emits equivalence).map)))
  | project input columns ih =>
    exact nested_emits (hd depth) ((ih _ hkeeps).bind (columns_emits columns).map)
  | joinEq left right leftColumn rightColumn equivalence ihLeft ihRight
  | antiJoin left right leftColumn rightColumn equivalence ihLeft ihRight =>
    obtain ⟨hleft, hright⟩ := forall_mem_append.mp hkeeps
    exact nested_emits (hd depth) ((ihLeft _ hleft).bind ((ihRight _ hright).bind
      ((usize_emits leftColumn).bind ((usize_emits rightColumn).bind (u128_emits equivalence).map))))
  | difference left right ihLeft ihRight =>
    obtain ⟨hleft, hright⟩ := forall_mem_append.mp hkeeps
    exact nested_emits (hd depth) ((ihLeft _ hleft).bind (ihRight _ hright).map)
  | groupCount input groupColumn groupEquivalence resultEquivalence ih =>
    exact nested_emits (hd depth) ((ih _ hkeeps).bind ((usize_emits groupColumn).bind
      ((u128_emits groupEquivalence).bind (u128_emits resultEquivalence).map)))
  | distinct input columnEquivalences ih =>
    exact nested_emits (hd depth) ((ih _ hkeeps).bind (ids_emits columnEquivalences).map)
  | topKWithTies input column ordering direction k ih =>
    exact nested_emits (hd depth) ((ih _ hkeeps).bind ((usize_emits column).bind
      ((u128_emits ordering).bind ((orderDirection_emits direction).bind (usize_emits k).map))))

/-! ### Requests and responses -/

theorem rows_emits {rows : List Row} (hkeeps : ∀ value ∈ rows.flatten, order.Keeps value) :
    Writes limits (Encoder.rows limits rows depth)
      (fun fuel => Decoder.rows limits order fuel depth) rows := by
  apply sequence_emits
  intro row hrow
  apply sequence_emits
  intro value hvalue
  exact value_emits value depth (hkeeps value (mem_flatten.mpr ⟨row, hrow, hvalue⟩))

theorem queryRequest_emits {request : QueryRequest}
    (hkeeps : ∀ value ∈ request.query.values, order.Keeps value) :
    Writes limits (Encoder.queryRequest limits request depth)
      (fun fuel => Decoder.queryRequest limits order fuel depth) request :=
  (snapshotTarget_emits request.target).bind (query_emits request.query depth hkeeps).map

theorem queryResponse_emits {response : QueryResponse}
    (hkeeps : ∀ value ∈ response.rows.flatten, order.Keeps value) :
    Writes limits (Encoder.queryResponse limits response depth)
      (fun fuel => Decoder.queryResponse limits order fuel depth) response :=
  (u64_emits response.revision).bind ((rows_emits hkeeps).bind ((bool_emits response.isSet).bind
    (ids_emits response.columnEquivalences).map))

theorem rowChange_emits {record : Id128 → List Row → List Row → α} {relation : Id128}
    {inserted removed : List Row} (hkeeps : ∀ value ∈ rowValues inserted removed, order.Keeps value) :
    Writes limits (Encoder.rowChange limits relation inserted removed depth)
      (fun fuel => (do
        return record (← Decoder.u128) (← Decoder.rows limits order fuel depth)
          (← Decoder.rows limits order fuel depth) : Wire α)) (record relation inserted removed) := by
  obtain ⟨hinserted, hremoved⟩ := forall_mem_append.mp hkeeps
  exact (u128_emits relation).bind ((rows_emits hinserted).bind (rows_emits hremoved).map)

theorem commitRequest_emits {request : CommitRequest}
    (hkeeps : ∀ value ∈ (HostedRequest.commit request).values, order.Keeps value) :
    Writes limits (Encoder.commitRequest limits request depth)
      (fun fuel => Decoder.commitRequest limits order fuel depth) request := by
  have hmutations : ∀ mutation ∈ request.mutations, Writes limits
      (Encoder.rowChange limits mutation.relation mutation.inserted mutation.removed depth)
      (fun fuel => Decoder.relationMutation limits order fuel depth) mutation := by
    intro mutation hmem
    have hvalues : ∀ value ∈ rowValues mutation.inserted mutation.removed, order.Keeps value :=
      fun value hvalue => hkeeps value (mem_flatMap.mpr ⟨mutation, hmem, hvalue⟩)
    exact @rowChange_emits _ _ _ _ RelationMutation.mk _ _ _ hvalues
  exact (u64_emits request.baseRevision).bind ((u64_emits _).bind ((u64_emits _).bind
    ((u128_emits request.idempotencyKey).bind (sequence_emits hmutations).map)))

theorem commitResponse_emits (response : CommitResponse) :
    Writes limits (Encoder.commitResponse limits response) (fun _ => Decoder.commitResponse) response := by
  cases response with
  | committed revision | alreadySatisfied revision | alreadyCommitted revision =>
    exact (u8_emits _).bind (u64_emits revision).map

theorem top_emits {tag : UInt8} {e : Wire Unit} (h : Writes limits e (fun fuel => arm fuel tag) a) :
    Writes limits (do enter limits depth; Encoder.u8 limits tag; e)
      (fun fuel => Decoder.node limits depth >>= arm fuel) a := by
  rw [← bind_assoc]
  exact (node_emits depth tag).bind h

theorem hostedRequest_emits {request : HostedRequest}
    (hkeeps : ∀ value ∈ request.values, order.Keeps value) :
    Writes limits (Encoder.hostedRequest limits request depth)
      (fun fuel => Decoder.hostedRequest limits order fuel depth) request := by
  cases request with
  | currentRevision => exact (node_emits depth 0).last fun _ => rfl
  | query request => exact top_emits (queryRequest_emits hkeeps).map
  | history target => exact top_emits (snapshotTarget_emits target).map
  | commit request => exact top_emits (commitRequest_emits hkeeps).map
  | openWatch request =>
    exact top_emits ((snapshotTarget_emits request.target).bind (query_emits request.query _ hkeeps).map)
  | nextWatch subscription | watchStatus subscription | cancelWatch subscription
  | closeWatch subscription => exact top_emits (u64_emits subscription).map
  | closeSession => exact (node_emits depth 9).last fun _ => rfl

theorem historyKind_emits (kind : HistoryKind) :
    Writes limits (Encoder.u8 limits (historyKindTag kind))
      (fun _ => Decoder.u8 >>= Decoder.historyKindFromTag) kind := by
  apply (u8_emits _).last
  intro _
  cases kind <;> rfl

theorem historyReversibility_emits (reversibility : HistoryReversibilityDto) :
    Writes limits (Encoder.u8 limits (historyReversibilityTag reversibility))
      (fun _ => Decoder.u8 >>= Decoder.historyReversibilityFromTag) reversibility := by
  apply (u8_emits _).last
  intro _
  cases reversibility <;> rfl

theorem errorCode_emits (code : ProtocolErrorCode) :
    Writes limits (Encoder.u8 limits (errorCodeTag code))
      (fun _ => Decoder.u8 >>= Decoder.errorCodeFromTag) code := by
  apply (u8_emits _).last
  intro _
  cases code <;> rfl

theorem historyEntry_emits {entry : HistoryEntryDto}
    (hkeeps : ∀ value ∈ entry.changes.flatMap fun change => rowValues change.inserted change.removed,
      order.Keeps value) :
    Writes limits (Encoder.historyEntry limits entry depth)
      (fun fuel => Decoder.historyEntry limits order fuel depth) entry := by
  have hchanges : ∀ change ∈ entry.changes, Writes limits
      (Encoder.rowChange limits change.relation change.inserted change.removed depth)
      (fun fuel => Decoder.historyRelationChange limits order fuel depth) change := by
    intro change hmem
    have hvalues : ∀ value ∈ rowValues change.inserted change.removed, order.Keeps value :=
      fun value hvalue => hkeeps value (mem_flatMap.mpr ⟨change, hmem, hvalue⟩)
    exact @rowChange_emits _ _ _ _ HistoryRelationChangeDto.mk _ _ _ hvalues
  exact (u128_emits entry.effectId).bind ((ids_emits entry.prerequisites).bind
    ((u128_emits entry.idempotencyKey).bind ((u64_emits entry.sourceRevision).bind
    ((u64_emits entry.targetRevision).bind ((historyKind_emits entry.kind).bind
    ((historyReversibility_emits entry.reversibility).bind (sequence_emits hchanges).map))))))

theorem watchEvent_emits {event : WatchEventDto}
    (hkeeps : ∀ value ∈ rowValues event.inserted event.removed, order.Keeps value) :
    Writes limits (Encoder.watchEvent limits event depth)
      (fun fuel => Decoder.watchEvent limits order fuel depth) event := by
  obtain ⟨hinserted, hremoved⟩ := forall_mem_append.mp hkeeps
  exact (u64_emits event.subscription).bind ((u64_emits event.sourceRevision).bind
    ((u64_emits event.targetRevision).bind ((rows_emits hinserted).bind (rows_emits hremoved).map)))

theorem watchStatus_emits (status : WatchStatusDto) :
    Writes limits (Encoder.watchStatus limits status) (fun _ => Decoder.watchStatus) status := by
  cases status with
  | current revision | cancelled revision | runtimeClosed revision =>
    exact (u8_emits _).bind (u64_emits revision).map
  | lagging anchorRevision headRevision pendingTransitions =>
    exact (u8_emits 1).bind ((u64_emits anchorRevision).bind ((u64_emits headRevision).bind
      (usize_emits pendingTransitions).map))
  | unavailable anchorRevision headRevision =>
    exact (u8_emits 4).bind ((u64_emits anchorRevision).bind (u64_emits headRevision).map)

theorem hostedResponse_emits {response : HostedResponse}
    (hkeeps : ∀ value ∈ response.values, order.Keeps value) :
    Writes limits (Encoder.hostedResponse limits response depth)
      (fun fuel => Decoder.hostedResponse limits order fuel depth) response := by
  cases response with
  | currentRevision revision => exact top_emits (u64_emits revision).map
  | query response => exact top_emits (queryResponse_emits hkeeps).map
  | history anchorRevision entries =>
    have hentries : ∀ entry ∈ entries, Writes limits
        (Encoder.historyEntry limits entry (nextDepth depth))
        (fun fuel => Decoder.historyEntry limits order fuel (nextDepth depth)) entry := by
      intro entry hmem
      apply historyEntry_emits
      exact fun value hvalue => hkeeps value (mem_flatMap.mpr ⟨entry, hmem, hvalue⟩)
    exact top_emits ((u64_emits anchorRevision).bind (sequence_emits hentries).map)
  | commit response => exact top_emits (commitResponse_emits response).map
  | watchOpened response =>
    exact top_emits ((u64_emits response.subscription).bind (queryResponse_emits hkeeps).map)
  | watchEvent event => exact top_emits (watchEvent_emits hkeeps).map
  | watchStatus subscription status =>
    exact top_emits ((u64_emits subscription).bind (watchStatus_emits status).map)
  | watchCancelled subscription | watchClosed subscription =>
    exact top_emits (u64_emits subscription).map
  | sessionClosed => exact (node_emits depth 9).last fun _ => rfl

theorem wireResponse_emits {response : WireResponse}
    (hkeeps : ∀ value ∈ response.values, order.Keeps value) :
    Writes limits (Encoder.wireResponse limits response)
      (fun fuel => Decoder.wireResponse limits order fuel) response := by
  cases response with
  | success response => exact (u8_emits 0).bind (hostedResponse_emits hkeeps).map
  | error code message => exact (u8_emits 1).bind ((errorCode_emits code).bind (string_emits message).map)

theorem decodePayload_of_emits {e : Wire Unit}
    (h : Writes limits e d a) {payload : List UInt8} (heq : encodePayload e = .ok payload) :
    decodePayload limits (d payload.length) payload = .ok a := by
  unfold encodePayload at heq
  rw [bind_eq_ok] at heq
  obtain ⟨⟨⟨⟩, s'⟩, hrun, hpure⟩ := heq
  cases hpure
  obtain ⟨hfits, b, hb, hread⟩ := h ([], 0) s' hrun (Nat.zero_le _)
  have hb' : s'.1 = b := hb
  have hrest := hread s'.1.length [] (by rw [hb'])
  rw [append_nil, ← hb'] at hrest
  unfold decodePayload
  rw [if_neg (Nat.not_lt.mpr hfits), hrest]
  rfl

end Cfmd.Protocol
