import Cfmd.Lib.SortedAssoc
import Cfmd.Protocol.WireRoundTrip

/-! What the decoder reads, the encoder writes: of a message whose products are listed as the
payload has them, the encoder writes the payload again. If the fields are collected by id,
the products of the message are maps. -/

namespace Cfmd.Protocol
open Lib List

variable {limits : WireLimits} {order : FieldOrder} {depth : ℕ} {n : ℕ} {t t' : List UInt8 × ℕ}
  {value : ProtocolValue} {α : Type} {P : α → Prop} {d : Wire α} {fields fields' : Fields}

abbrev Recovers {α : Type} (limits : WireLimits) (order : FieldOrder) (d : Wire α)
    (enc : α → Wire Unit) (P : α → Prop) : Prop :=
  Rereads (order = .asListed) limits.maxPayloadBytes.toNat d enc P

abbrev Copies {α : Type} (limits : WireLimits) (order : FieldOrder) (d : Wire α)
    (enc : α → Wire Unit) : Prop :=
  Recovers limits order d enc fun _ => True

/-! ### Numbers and texts -/

theorem copies_intro {enc : α → Wire Unit}
    (h : ∀ t a t', d t = .ok (a, t') → Reads limits.maxPayloadBytes.toNat (enc a) t t') :
    Copies limits order d enc :=
  .intro fun t a t' heq => ⟨fun _ => h t a t' heq, fun _ => trivial⟩

theorem reads_of_take {bytes : List UInt8} (heq : Decoder.take n t = .ok (bytes, t')) :
    Reads limits.maxPayloadBytes.toNat (Encoder.extend limits bytes) t t' := by
  obtain ⟨_, hbytes, hnodes⟩ := take_eq_ok.mp heq
  refine ⟨bytes, hbytes, fun written hfits => ?_⟩
  rw [length_append] at hfits
  rw [extend_eq_ok, hnodes]
  exact ⟨hfits, rfl⟩

theorem number_reads {n : ℕ} {ofNat : ℕ → α} {toNat : α → ℕ}
    (h : ∀ x < 256 ^ n, toNat (ofNat x) = x) :
    Copies limits order (Decoder.number n ofNat) fun a =>
      Encoder.extend limits (toBeBytes n (toNat a)) := by
  apply copies_intro
  intro t a t' heq
  obtain ⟨bytes, htake, rfl⟩ := Coder.map_eq_ok.mp heq
  have hlen := (take_eq_ok.mp htake).1
  have hlt := fromBeBytes_lt bytes
  rw [hlen] at hlt
  have hback := toBeBytes_fromBeBytes bytes
  rw [hlen] at hback
  rw [h _ hlt, hback]
  exact reads_of_take htake

theorem u8_reads : Copies limits order Decoder.u8 (Encoder.u8 limits) :=
  number_reads fun _ hlt => UInt8.toNat_ofNat_of_lt hlt

theorem u32_reads : Copies limits order Decoder.u32 (Encoder.u32 limits) :=
  number_reads fun _ hlt => UInt32.toNat_ofNat_of_lt hlt

theorem u64_reads : Copies limits order Decoder.u64 (Encoder.u64 limits) :=
  number_reads fun _ hlt => UInt64.toNat_ofNat_of_lt hlt

theorem i64_reads : Copies limits order Decoder.i64 (Encoder.i64 limits) := by
  have hback : ∀ x < 256 ^ 8, (Int64.ofUInt64 (UInt64.ofNat x)).toUInt64.toNat = x :=
    fun x hlt => UInt64.toNat_ofNat_of_lt hlt
  exact @number_reads limits order Int64 8 _ (fun x => x.toUInt64.toNat) hback

theorem u128_reads : Copies limits order Decoder.u128 (Encoder.u128 limits) := by
  have hback : ∀ x < 256 ^ 16, (BitVec.ofNat 128 x).toNat = x :=
    fun x hlt => (BitVec.toNat_ofNat x 128).trans (Nat.mod_eq_of_lt hlt)
  exact @number_reads limits order Id128 16 _ (fun x => x.value.toNat) hback

theorem usize_reads : Copies limits order Decoder.usize (Encoder.usize limits) := by
  refine u32_reads.map (fun x => ?_) fun _ _ _ => trivial
  unfold Encoder.usize
  rw [if_neg (Nat.not_le.mpr x.toNat_lt), UInt32.ofNat_toNat]

theorem tag_reads {fromTag : UInt8 → Wire α} {tagOf : α → UInt8}
    (h : ∀ tag, (∃ a, fromTag tag = pure a ∧ tagOf a = tag) ∨ ∃ error, fromTag tag = throw error) :
    Copies limits order (Decoder.u8 >>= fromTag) fun a => Encoder.u8 limits (tagOf a) := by
  apply u8_reads.bind
  intro tag _
  rcases h tag with ⟨a, hpure, rfl⟩ | ⟨error, hthrow⟩
  · rw [hpure]
    exact .pure bind_pure_unit fun _ => trivial
  · rw [hthrow]
    exact .throw error

theorem bool_reads : Copies limits order Decoder.bool (Encoder.bool limits) := by
  apply u8_reads.bind
  intro tag _
  unfold Decoder.boolArm
  split
  · exact .pure bind_pure_unit fun _ => trivial
  · exact .pure bind_pure_unit fun _ => trivial
  · exact .throw _

theorem collectionLen_reads :
    Copies limits order (Decoder.collectionLen limits) (Encoder.collectionLen limits) := by
  apply u32_reads.bind
  intro len _
  split_ifs with hlimit
  · exact .throw _
  refine .pure ?_ fun _ => trivial
  rw [UInt32.lt_iff_toNat_lt] at hlimit
  unfold Encoder.collectionLen
  rw [if_neg (Nat.not_le.mpr len.toNat_lt), if_neg hlimit, UInt32.ofNat_toNat]
  exact bind_pure_unit

theorem fromUtf8_eq_ok {bytes : List UInt8} {x : String} :
    Decoder.fromUtf8 bytes t = .ok (x, t') → bytes = x.toByteArray.data.toList ∧ t = t' := by
  intro h
  unfold Decoder.fromUtf8 at h
  generalize htext : String.fromUTF8? ⟨bytes.toArray⟩ = text at h
  cases text with
  | some text =>
    obtain ⟨rfl, rfl⟩ := Coder.pure_eq_ok.mp h
    unfold String.fromUTF8? at htext
    split_ifs at htext with hvalid
    rw [Option.some.injEq] at htext
    rw [← htext]
    exact ⟨rfl, rfl⟩
  | none => exact (Coder.throw_eq_ok.mp h).elim

theorem string_reads : Copies limits order (Decoder.string limits) (Encoder.string limits) := by
  apply copies_intro
  intro t x t' heq
  obtain ⟨len, mid, hlen, heq⟩ := Coder.bind_eq_ok.mp heq
  split_ifs at heq with hlimit
  · exact (Coder.throw_eq_ok.mp heq).elim
  obtain ⟨bytes, mid', htake, htext⟩ := Coder.bind_eq_ok.mp heq
  obtain ⟨rfl, rfl⟩ := fromUtf8_eq_ok htext
  have hsize := (take_eq_ok.mp htake).1
  rw [UInt32.lt_iff_toNat_lt] at hlimit
  unfold Encoder.string
  dsimp only
  rw [hsize, if_neg (Nat.not_le.mpr len.toNat_lt), if_neg hlimit, UInt32.ofNat_toNat]
  exact ((u32_reads.reads hlen).1 rfl).bind (reads_of_take htake)

theorem snapshotTarget_reads :
    Copies limits order Decoder.snapshotTarget (Encoder.snapshotTarget limits) := by
  apply u8_reads.bind
  intro tag _
  unfold Decoder.snapshotTargetArm
  split
  · exact .pure bind_pure_unit fun _ => trivial
  · exact u64_reads.map (fun _ => rfl) fun _ _ _ => trivial
  · exact u64_reads.map (fun _ => rfl) fun _ _ _ => trivial
  · exact .throw _

theorem sequence_reads {enc : α → Wire Unit} (h : Recovers limits order d enc P) :
    Recovers limits order (Decoder.sequence limits d) (Encoder.sequence limits enc)
      fun as => ∀ a ∈ as, P a := by
  apply Rereads.intro
  intro t items t' heq
  obtain ⟨len, mid, hlen, heq⟩ := Coder.bind_eq_ok.mp heq
  obtain ⟨rfl, hitems, hP⟩ := h.times heq
  exact ⟨fun hl => ((collectionLen_reads.reads hlen).1 hl).bind (hitems hl), hP⟩

/-! ### Values -/

theorem insertField_eq {field : SemanticId} (hsorted : SortedAssoc.Sorted fields)
    (h : insertField fields field value = some fields') :
    fields' = SortedAssoc.insert field value fields := by
  induction fields generalizing fields' with
  | nil =>
    cases h
    rfl
  | cons other rest ih =>
    unfold insertField at h
    rw [← nil_append (other :: rest)] at hsorted ⊢
    split at h
    · rename_i hlt
      cases h
      obtain ⟨hbelow, _, habove⟩ := SortedAssoc.parts_of_lt hsorted hlt
      rw [SortedAssoc.insert, hbelow, habove]
      rfl
    · cases h
    · rename_i hgt
      obtain ⟨inserted, hinserted, rfl⟩ := Option.map_eq_some_iff.mp h
      obtain ⟨hbelow, _, habove⟩ := SortedAssoc.parts_of_gt hsorted hgt
      rw [ih hsorted.sides.1.2 hinserted, SortedAssoc.insert, SortedAssoc.insert, hbelow, habove]
      rfl

section
variable {child : Wire ProtocolValue}
  (h : Recovers limits order child (Encoder.value limits · depth) Value.Ordered)
include h

theorem productFields_listed (hl : order = .asListed) {done all : Fields}
    (heq : Decoder.productFields order child n done t = .ok (all, t')) :
    ∃ fields, all = done ++ fields ∧ fields.length = n ∧
      Reads limits.maxPayloadBytes.toNat (Encoder.productFields limits fields depth) t t' := by
  induction n generalizing done t with
  | zero =>
    obtain ⟨rfl, rfl⟩ := Coder.pure_eq_ok.mp heq
    exact ⟨[], (append_nil _).symm, rfl, Reads.pure t⟩
  | succ n ih =>
    obtain ⟨field, mid, hfield, heq⟩ := Coder.bind_eq_ok.mp heq
    obtain ⟨value, mid', hvalue, heq⟩ := Coder.bind_eq_ok.mp heq
    rw [hl] at heq ih
    obtain ⟨fields, rfl, hlen, hreads⟩ := ih heq
    refine ⟨(field, value) :: fields, append_assoc _ _ _, by rw [length_cons, hlen], ?_⟩
    exact ((u128_reads.reads hfield).1 hl).bind (((h.reads hvalue).1 hl).bind hreads)

theorem productFields_ordered (hl : order ≠ .asListed) {done all : Fields}
    (heq : Decoder.productFields order child n done t = .ok (all, t'))
    (hsorted : SortedAssoc.Sorted done) (hdone : ∀ entry ∈ done, entry.2.Ordered) :
    (Value.product all).Ordered := by
  induction n generalizing done t with
  | zero =>
    obtain ⟨rfl, rfl⟩ := Coder.pure_eq_ok.mp heq
    refine ⟨ascending_iff_pairwise.mpr hsorted, fun child hchild => ?_⟩
    obtain ⟨entry, hentry, rfl⟩ := mem_map.mp hchild
    exact hdone entry hentry
  | succ n ih =>
    obtain ⟨field, mid, hfield, heq⟩ := Coder.bind_eq_ok.mp heq
    obtain ⟨value, mid', hvalue, heq⟩ := Coder.bind_eq_ok.mp heq
    have hby : order = .byId := by
      cases order with
      | byId => rfl
      | asListed => exact absurd rfl hl
    generalize hinsert : order.insert done field value = inserted at heq
    cases inserted with
    | none => exact (Coder.throw_eq_ok.mp heq).elim
    | some fields =>
      rw [hby] at hinsert
      rw [insertField_eq hsorted hinsert] at heq
      apply ih heq (hsorted.insert value)
      intro entry hentry
      rcases SortedAssoc.mem_of_mem_insert hentry with rfl | hentry
      · exact (h.reads hvalue).2 hl
      · exact hdone entry hentry

theorem product_reads :
    Recovers limits order
      (do Decoder.productFields order child (← Decoder.collectionLen limits) [])
      (fun fields => do
        Encoder.collectionLen limits fields.length
        Encoder.productFields limits fields depth)
      fun fields => (Value.product fields).Ordered := by
  apply Rereads.intro
  intro t fields t' heq
  obtain ⟨len, mid, hlen, heq⟩ := Coder.bind_eq_ok.mp heq
  refine ⟨fun hl => ?_, fun hl => productFields_ordered h hl heq .nil nofun⟩
  obtain ⟨_, rfl, rfl, hreads⟩ := productFields_listed h hl heq
  exact ((collectionLen_reads.reads hlen).1 hl).bind hreads

theorem values_reads :
    Recovers limits order (Decoder.sequence limits child) (fun values => do
      Encoder.collectionLen limits values.length
      Encoder.values limits values depth) fun values => ∀ value ∈ values, value.Ordered := by
  simp only [values_eq_forM]
  exact sequence_reads h

theorem bagEntries_reads :
    Recovers limits order (Decoder.sequence limits do return (← child, ← Decoder.u64))
      (fun entries => do
        Encoder.collectionLen limits entries.length
        Encoder.bagEntries limits entries depth) fun entries => ∀ entry ∈ entries, entry.1.Ordered := by
  simp only [bagEntries_eq_forM]
  exact sequence_reads (h.bind fun _ hvalue => u64_reads.map (fun _ => rfl) fun _ hl _ => hvalue hl)

theorem mapEntries_reads :
    Recovers limits order (Decoder.sequence limits do return (← child, ← child))
      (fun entries => do
        Encoder.collectionLen limits entries.length
        Encoder.mapEntries limits entries depth)
      fun entries => ∀ entry ∈ entries, entry.1.Ordered ∧ entry.2.Ordered := by
  simp only [mapEntries_eq_forM]
  exact sequence_reads (h.bind fun _ hkey => h.map (fun _ => rfl) fun _ hl hvalue =>
    ⟨hkey hl, hvalue⟩)

end

theorem enter_reads (depth : ℕ) :
    Copies limits order (enter limits depth) fun _ => enter limits depth := by
  apply copies_intro
  rintro ⟨bytes, nodes⟩ ⟨⟩ t' heq
  unfold enter at heq
  dsimp only at heq
  split_ifs at heq with hdepth hnodes
  cases heq
  refine ⟨[], rfl, fun written _ => ?_⟩
  unfold enter
  dsimp only
  rw [if_neg hdepth, if_neg hnodes, append_nil]

theorem node_reads {arm : UInt8 → Wire α} {enc : α → Wire Unit}
    (h : ∀ tag, RereadsAfter (order = .asListed) limits.maxPayloadBytes.toNat
      (fun e => do enter limits depth; Encoder.u8 limits tag; e) (arm tag) enc P) :
    Recovers limits order (Decoder.node limits depth >>= arm) enc P := by
  unfold Decoder.node
  rw [bind_assoc]
  exact (enter_reads depth).bind fun _ _ => u8_reads.bind fun tag _ => h tag

theorem node_pure (tag : UInt8) :
    (do enter limits depth; Encoder.u8 limits tag; pure () : Wire Unit) =
      (do enter limits depth; Encoder.u8 limits tag) := by
  rw [← bind_assoc]
  exact bind_pure_unit

theorem ordered_of_children (hfields : value.fields = [])
    (h : ∀ child ∈ value.children, child.Ordered) : value.Ordered := by
  refine ⟨?_, h⟩
  rw [hfields]
  trivial

theorem value_reads (fuel depth : ℕ) :
    Recovers limits order (Decoder.value limits order fuel depth) (Encoder.value limits · depth)
      Value.Ordered := by
  induction fuel generalizing depth with
  | zero => exact node_reads fun _ => .throw _
  | succ fuel ih =>
    have hchild := ih (nextDepth depth)
    have hone : ∀ {child value : ProtocolValue}, value.fields = [] → value.children = [child] →
        child.Ordered → value.Ordered := fun hfields hchildren h =>
      ordered_of_children hfields (hchildren ▸ forall_mem_singleton.mpr h)
    apply node_reads
    intro tag
    unfold Decoder.valueArm
    split
    · exact .pure (node_pure _) fun _ => ordered_of_children rfl nofun
    · exact bool_reads.map (fun _ => rfl) fun _ _ _ => ordered_of_children rfl nofun
    · exact i64_reads.map (fun _ => rfl) fun _ _ _ => ordered_of_children rfl nofun
    · exact u64_reads.map (fun _ => rfl) fun _ _ _ => ordered_of_children rfl nofun
    · exact string_reads.map (fun _ => rfl) fun _ _ _ => ordered_of_children rfl nofun
    · exact u128_reads.bind fun _ _ => u128_reads.map (fun _ => rfl) fun _ _ _ =>
        ordered_of_children rfl nofun
    · exact u128_reads.bind fun _ _ => u128_reads.map (fun _ => rfl) fun _ _ _ =>
        ordered_of_children rfl nofun
    · rw [← bind_assoc]
      exact (product_reads hchild).map (fun _ => rfl) fun _ _ h => h
    · apply u8_reads.bind
      intro tag _
      unfold Decoder.optionArm
      split
      · refine .pure ?_ fun _ => ordered_of_children rfl nofun
        simp only [bind_pure_unit]
        rfl
      · exact hchild.map (fun _ => rfl) fun _ _ h => hone rfl rfl h
      · exact .throw _
    · exact u128_reads.bind fun _ _ => hchild.map (fun _ => rfl) fun _ _ h => hone rfl rfl h
    · exact (values_reads hchild).map (fun _ => rfl) fun _ _ h => ordered_of_children rfl h
    · exact u128_reads.bind fun _ _ => (values_reads hchild).map (fun _ => rfl) fun _ _ h =>
        ordered_of_children rfl h
    · exact u128_reads.bind fun _ _ => (bagEntries_reads hchild).map (fun _ => rfl) fun _ _ h =>
        ordered_of_children rfl (forall_mem_map.mpr h)
    · refine u128_reads.bind fun _ _ => (mapEntries_reads hchild).map (fun _ => rfl) fun _ _ h =>
        ordered_of_children rfl (forall_mem_flatMap.mpr fun entry hentry => ?_)
      exact forall_mem_cons.mpr ⟨(h entry hentry).1, forall_mem_singleton.mpr (h entry hentry).2⟩
    · exact .throw _

/-! ### Queries -/

abbrev OrderedValues (values : List ProtocolValue) : Prop := ∀ value ∈ values, value.Ordered

theorem orderDirection_reads :
    Copies limits order Decoder.orderDirection (Encoder.orderDirection limits) := by
  apply u8_reads.bind
  intro tag _
  unfold Decoder.orderDirectionArm
  split
  · exact .pure bind_pure_unit fun _ => trivial
  · exact .pure bind_pure_unit fun _ => trivial
  · exact .throw _

theorem query_reads (fuel depth : ℕ) :
    Recovers limits order (Decoder.query limits order fuel depth) (Encoder.query limits · depth)
      fun query => OrderedValues query.values := by
  induction fuel generalizing depth with
  | zero => exact node_reads fun _ => .throw _
  | succ fuel ih =>
    have hchild := ih (nextDepth depth)
    have hvalue := @value_reads limits order fuel (nextDepth depth)
    apply node_reads
    intro tag
    unfold Decoder.queryArm
    split
    · exact u128_reads.map (fun _ => rfl) fun _ _ _ => nofun
    · exact hchild.bind fun _ hinput => usize_reads.bind fun _ _ => hvalue.bind fun _ hvalue =>
        u128_reads.map (fun _ => rfl) fun _ hl _ =>
          forall_mem_append.mpr ⟨hinput hl, forall_mem_singleton.mpr (hvalue hl)⟩
    · exact hchild.bind fun _ hinput => (sequence_reads usize_reads).map (fun _ => rfl)
        fun _ hl _ => hinput hl
    · exact hchild.bind fun _ hleft => hchild.bind fun _ hright => usize_reads.bind fun _ _ =>
        usize_reads.bind fun _ _ => u128_reads.map (fun _ => rfl) fun _ hl _ =>
          forall_mem_append.mpr ⟨hleft hl, hright hl⟩
    · exact hchild.bind fun _ hleft => hchild.map (fun _ => rfl) fun _ hl hright =>
        forall_mem_append.mpr ⟨hleft hl, hright⟩
    · exact hchild.bind fun _ hleft => hchild.bind fun _ hright => usize_reads.bind fun _ _ =>
        usize_reads.bind fun _ _ => u128_reads.map (fun _ => rfl) fun _ hl _ =>
          forall_mem_append.mpr ⟨hleft hl, hright hl⟩
    · exact hchild.bind fun _ hinput => usize_reads.bind fun _ _ => u128_reads.bind fun _ _ =>
        u128_reads.map (fun _ => rfl) fun _ hl _ => hinput hl
    · exact hchild.bind fun _ hinput => (sequence_reads u128_reads).map (fun _ => rfl)
        fun _ hl _ => hinput hl
    · exact hchild.bind fun _ hinput => usize_reads.bind fun _ _ => u128_reads.bind fun _ _ =>
        orderDirection_reads.bind fun _ _ => usize_reads.map (fun _ => rfl) fun _ hl _ => hinput hl
    · exact .throw _

/-! ### Requests and responses -/

variable {fuel : ℕ}

theorem rows_reads : Recovers limits order (Decoder.rows limits order fuel depth)
    (Encoder.rows limits · depth) fun rows => OrderedValues rows.flatten := by
  have h := sequence_reads (sequence_reads (@value_reads limits order fuel depth))
  apply Rereads.intro
  intro t rows t' heq
  refine (h.reads heq).imp_right fun hordered hl value hvalue => ?_
  obtain ⟨row, hrow, hvalue⟩ := mem_flatten.mp hvalue
  exact hordered hl row hrow value hvalue

theorem queryRequest_reads : Recovers limits order (Decoder.queryRequest limits order fuel depth)
    (Encoder.queryRequest limits · depth) fun request => OrderedValues request.query.values :=
  snapshotTarget_reads.bind fun _ _ => (query_reads fuel depth).map (fun _ => rfl) fun _ _ h => h

theorem queryResponse_reads : Recovers limits order (Decoder.queryResponse limits order fuel depth)
    (Encoder.queryResponse limits · depth) fun response => OrderedValues response.rows.flatten :=
  u64_reads.bind fun _ _ => rows_reads.bind fun _ hrows => bool_reads.bind fun _ _ =>
    (sequence_reads u128_reads).map (fun _ => rfl) fun _ hl _ => hrows hl

theorem relationMutation_reads :
    Recovers limits order (Decoder.relationMutation limits order fuel depth)
      (fun mutation =>
        Encoder.rowChange limits mutation.relation mutation.inserted mutation.removed depth)
      fun mutation => OrderedValues (rowValues mutation.inserted mutation.removed) :=
  u128_reads.bind fun _ _ => rows_reads.bind fun _ hinserted => rows_reads.map (fun _ => rfl)
    fun _ hl hremoved => forall_mem_append.mpr ⟨hinserted hl, hremoved⟩

theorem historyRelationChange_reads :
    Recovers limits order (Decoder.historyRelationChange limits order fuel depth)
      (fun change => Encoder.rowChange limits change.relation change.inserted change.removed depth)
      fun change => OrderedValues (rowValues change.inserted change.removed) :=
  u128_reads.bind fun _ _ => rows_reads.bind fun _ hinserted => rows_reads.map (fun _ => rfl)
    fun _ hl hremoved => forall_mem_append.mpr ⟨hinserted hl, hremoved⟩

theorem commitRequest_reads : Recovers limits order (Decoder.commitRequest limits order fuel depth)
    (Encoder.commitRequest limits · depth) fun request => (HostedRequest.commit request).Ordered :=
  u64_reads.bind fun _ _ => u64_reads.bind fun _ _ => u64_reads.bind fun _ _ =>
    u128_reads.bind fun _ _ => (sequence_reads relationMutation_reads).map (fun _ => rfl)
      fun _ _ h => forall_mem_flatMap.mpr h

theorem commitResponse_reads :
    Copies limits order Decoder.commitResponse (Encoder.commitResponse limits) := by
  apply u8_reads.bind
  intro tag _
  unfold Decoder.commitResponseArm
  split
  · exact u64_reads.map (fun _ => rfl) fun _ _ _ => trivial
  · exact u64_reads.map (fun _ => rfl) fun _ _ _ => trivial
  · exact u64_reads.map (fun _ => rfl) fun _ _ _ => trivial
  · exact .throw _

theorem hostedRequest_reads : Recovers limits order (Decoder.hostedRequest limits order fuel depth)
    (Encoder.hostedRequest limits · depth) HostedRequest.Ordered := by
  apply node_reads
  intro tag
  unfold Decoder.hostedRequestArm
  split
  · exact .pure (node_pure _) fun _ => nofun
  · exact queryRequest_reads.map (fun _ => rfl) fun _ _ h => h
  · exact snapshotTarget_reads.map (fun _ => rfl) fun _ _ _ => nofun
  · exact commitRequest_reads.map (fun _ => rfl) fun _ _ h => h
  · exact snapshotTarget_reads.bind fun _ _ => (query_reads fuel _).map (fun _ => rfl) fun _ _ h => h
  · exact u64_reads.map (fun _ => rfl) fun _ _ _ => nofun
  · exact u64_reads.map (fun _ => rfl) fun _ _ _ => nofun
  · exact u64_reads.map (fun _ => rfl) fun _ _ _ => nofun
  · exact u64_reads.map (fun _ => rfl) fun _ _ _ => nofun
  · exact .pure (node_pure _) fun _ => nofun
  · exact .throw _

theorem historyKind_reads : Copies limits order (Decoder.u8 >>= Decoder.historyKindFromTag)
    fun kind => Encoder.u8 limits (historyKindTag kind) := by
  apply tag_reads
  intro tag
  unfold Decoder.historyKindFromTag
  split <;> first | exact .inl ⟨_, rfl, rfl⟩ | exact .inr ⟨_, rfl⟩

theorem historyReversibility_reads :
    Copies limits order (Decoder.u8 >>= Decoder.historyReversibilityFromTag)
      fun reversibility => Encoder.u8 limits (historyReversibilityTag reversibility) := by
  apply tag_reads
  intro tag
  unfold Decoder.historyReversibilityFromTag
  split <;> first | exact .inl ⟨_, rfl, rfl⟩ | exact .inr ⟨_, rfl⟩

theorem errorCode_reads : Copies limits order (Decoder.u8 >>= Decoder.errorCodeFromTag)
    fun code => Encoder.u8 limits (errorCodeTag code) := by
  apply tag_reads
  intro tag
  unfold Decoder.errorCodeFromTag
  split <;> first | exact .inl ⟨_, rfl, rfl⟩ | exact .inr ⟨_, rfl⟩

theorem historyEntry_reads : Recovers limits order (Decoder.historyEntry limits order fuel depth)
    (Encoder.historyEntry limits · depth) fun entry => OrderedValues (entry.changes.flatMap
      fun change => rowValues change.inserted change.removed) :=
  u128_reads.bind fun _ _ => (sequence_reads u128_reads).bind fun _ _ => u128_reads.bind fun _ _ =>
    u64_reads.bind fun _ _ => u64_reads.bind fun _ _ => historyKind_reads.bind fun _ _ =>
    historyReversibility_reads.bind fun _ _ => (sequence_reads historyRelationChange_reads).map
      (fun _ => rfl) fun _ _ h => forall_mem_flatMap.mpr h

theorem watchEvent_reads : Recovers limits order (Decoder.watchEvent limits order fuel depth)
    (Encoder.watchEvent limits · depth)
    fun event => OrderedValues (rowValues event.inserted event.removed) :=
  u64_reads.bind fun _ _ => u64_reads.bind fun _ _ => u64_reads.bind fun _ _ =>
    rows_reads.bind fun _ hinserted => rows_reads.map (fun _ => rfl) fun _ hl hremoved =>
      forall_mem_append.mpr ⟨hinserted hl, hremoved⟩

theorem watchStatus_reads : Copies limits order Decoder.watchStatus (Encoder.watchStatus limits) := by
  apply u8_reads.bind
  intro tag _
  unfold Decoder.watchStatusArm
  split
  · exact u64_reads.map (fun _ => rfl) fun _ _ _ => trivial
  · exact u64_reads.bind fun _ _ => u64_reads.bind fun _ _ => usize_reads.map (fun _ => rfl)
      fun _ _ _ => trivial
  · exact u64_reads.map (fun _ => rfl) fun _ _ _ => trivial
  · exact u64_reads.map (fun _ => rfl) fun _ _ _ => trivial
  · exact u64_reads.bind fun _ _ => u64_reads.map (fun _ => rfl) fun _ _ _ => trivial
  · exact .throw _

theorem hostedResponse_reads :
    Recovers limits order (Decoder.hostedResponse limits order fuel depth)
      (Encoder.hostedResponse limits · depth) fun response => OrderedValues response.values := by
  apply node_reads
  intro tag
  unfold Decoder.hostedResponseArm
  split
  · exact u64_reads.map (fun _ => rfl) fun _ _ _ => nofun
  · exact queryResponse_reads.map (fun _ => rfl) fun _ _ h => h
  · exact u64_reads.bind fun _ _ => (sequence_reads historyEntry_reads).map (fun _ => rfl)
      fun _ _ h => forall_mem_flatMap.mpr h
  · exact commitResponse_reads.map (fun _ => rfl) fun _ _ _ => nofun
  · exact u64_reads.bind fun _ _ => queryResponse_reads.map (fun _ => rfl) fun _ _ h => h
  · exact watchEvent_reads.map (fun _ => rfl) fun _ _ h => h
  · exact u64_reads.bind fun _ _ => watchStatus_reads.map (fun _ => rfl) fun _ _ _ => nofun
  · exact u64_reads.map (fun _ => rfl) fun _ _ _ => nofun
  · exact u64_reads.map (fun _ => rfl) fun _ _ _ => nofun
  · exact .pure (node_pure _) fun _ => nofun
  · exact .throw _

theorem wireResponse_reads : Recovers limits order (Decoder.wireResponse limits order fuel)
    (Encoder.wireResponse limits) WireResponse.Ordered := by
  apply u8_reads.bind
  intro tag _
  unfold Decoder.wireResponseArm
  split
  · exact hostedResponse_reads.map (fun _ => rfl) fun _ _ h => h
  · exact errorCode_reads.bind fun _ _ => string_reads.map (fun _ => rfl) fun _ _ _ => nofun
  · exact .throw _

/-- A whole payload is written again, or the message that was read has its property. -/
theorem decodePayload_reads {enc : α → Wire Unit}
    (h : Recovers limits order d enc P) {payload : List UInt8} {a : α}
    (heq : decodePayload limits d payload = .ok a) :
    (order = .asListed → encodePayload (enc a) = .ok payload) ∧ (order ≠ .asListed → P a) := by
  unfold decodePayload at heq
  split_ifs at heq with hfits
  rw [bind_eq_ok] at heq
  obtain ⟨⟨a', rest, nodes⟩, hrun, heq⟩ := heq
  dsimp only at heq
  split_ifs at heq with hempty
  cases heq
  refine (h.reads hrun).imp_left fun hreads hl => ?_
  obtain ⟨b, hb, hwrite⟩ := hreads hl
  rw [isEmpty_iff.mp hempty, append_nil] at hb
  subst hb
  unfold encodePayload
  rw [hwrite [] (Nat.le_of_not_lt hfits)]
  rfl

end Cfmd.Protocol
