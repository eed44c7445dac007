import Cfmd.Durability.QueryCodec

/-! The relational causal observations of a durable intent. Their intent prefixes share nodes: each
node of their union is written once, as a reference to its parent and a segment, and the decoder
rebuilds the prefixes from the references. -/

namespace Cfmd.Durability
open Query Lib List

/-- `DurableIntentPrefix`: `tail` is `none`, or a node over its parent's tail. -/
inductive DurableIntentPrefix
  | empty
  | node (parent : DurableIntentPrefix) (relationMutations : List DurableRelationMutation)

namespace DurableIntentPrefix

def append (self : DurableIntentPrefix) (relationMutations : List DurableRelationMutation) :
    DurableIntentPrefix :=
  if relationMutations.isEmpty then self else .node self relationMutations

def newestFirst : DurableIntentPrefix → List (List DurableRelationMutation)
  | .empty => []
  | .node parent relationMutations => relationMutations :: parent.newestFirst

def segmentsOldestFirst (self : DurableIntentPrefix) : List (List DurableRelationMutation) :=
  self.newestFirst.reverse

theorem segmentsOldestFirst_append {self : DurableIntentPrefix}
    {segment : List DurableRelationMutation} (h : segment ≠ []) :
    (self.append segment).segmentsOldestFirst = self.segmentsOldestFirst ++ [segment] := by
  unfold append
  rw [if_neg (by simpa using h)]
  simp [segmentsOldestFirst, newestFirst]

end DurableIntentPrefix

structure DurableRelationalCausalObservation where
  observationId : UInt32
  observedRevision : UInt64
  intentPrefix : DurableIntentPrefix
  query : RelExpr

/-- What an observation says, whatever nodes its intent prefix shares. -/
def DurableRelationalCausalObservation.content (self : DurableRelationalCausalObservation) :
    UInt32 × UInt64 × List (List DurableRelationMutation) × RelExpr :=
  (self.observationId, self.observedRevision, self.intentPrefix.segmentsOldestFirst, self.query)

/-- The nodes written so far, and the number of the node with this parent and
these bytes; 0 stands for the empty prefix. -/
structure IntentNodes where
  nodeByKey : List ((ℕ × List UInt8) × ℕ) := []
  nodes : List (ℕ × List DurableRelationMutation) := []

namespace IntentNodes

def segment (state : IntentNodes × ℕ) (segment : List DurableRelationMutation) :
    Except CodecError (IntentNodes × ℕ) := do
  if segment.isEmpty then
    return state
  let encoded ← encodeRelationMutations segment
  match state.1.nodeByKey.lookup (state.2, encoded) with
  | some existing => return (state.1, existing)
  | none =>
    let id := state.1.nodes.length + 1
    return ({ nodeByKey := ((state.2, encoded), id) :: state.1.nodeByKey
              nodes := state.1.nodes ++ [(state.2, segment)] }, id)

/-- The loop over the observations, with the reference of each prefix. -/
def observations (self : IntentNodes) : List DurableRelationalCausalObservation →
    Except CodecError (IntentNodes × List ℕ)
  | [] => .ok (self, [])
  | observation :: rest => do
    let (self, prefixRef) ← observation.intentPrefix.segmentsOldestFirst.foldlM segment (self, 0)
    let (self, prefixRefs) ← self.observations rest
    return (self, prefixRef :: prefixRefs)

end IntentNodes

def encodeIntentNode (node : ℕ × List DurableRelationMutation) :
    Except CodecError (List UInt8) :=
  pushAll [pushUsize (.ofNat node.1), encodeRelationMutations node.2]

def encodeObservation (entry : DurableRelationalCausalObservation × ℕ) :
    Except CodecError (List UInt8) :=
  pushAll [.ok (pushU32 entry.1.observationId), .ok (pushU64 entry.1.observedRevision),
    pushUsize (.ofNat entry.2), encodeRelExpr entry.1.query 0]

def encodeRelationalCausalObservations
    (observations : List DurableRelationalCausalObservation) :
    Except CodecError (List UInt8) := do
  let (nodes, prefixRefs) ← IntentNodes.observations {} observations
  pushAll [pushLen nodes.nodes.length, writeAll encodeIntentNode nodes.nodes,
    pushLen observations.length, writeAll encodeObservation (observations.zip prefixRefs)]

def prefixAt (prefixes : List DurableIntentPrefix) (ref : ℕ) : Option DurableIntentPrefix :=
  if ref = 0 then some .empty else prefixes[ref - 1]?

namespace Source

def intentNode (prefixes : List DurableIntentPrefix) : Decoder String DurableIntentPrefix := do
  let parentRef ← u64
  if parentRef.toNat ≤ prefixes.length then do
    let segment ← decodeRelationMutations
    if segment.isEmpty then throw "relational intent prefix segment must not be empty"
    else match prefixAt prefixes parentRef.toNat with
      | none => throw "invalid relational intent prefix parent"
      | some parent => pure (parent.append segment)
  else throw "relational intent prefix parent must precede child"

def intentNodes : ℕ → List DurableIntentPrefix → Decoder String (List DurableIntentPrefix)
  | 0, prefixes => pure prefixes
  | count + 1, prefixes => do
    let added ← intentNode prefixes
    intentNodes count (prefixes ++ [added])

def observation (prefixes : List DurableIntentPrefix) (previous : Option UInt32) :
    Decoder String DurableRelationalCausalObservation := do
  let observationId ← u32
  if ascends previous observationId then do
    let observedRevision ← u64
    let prefixRef ← u64
    match prefixAt prefixes prefixRef.toNat with
    | none => throw "invalid relational intent prefix reference"
    | some intentPrefix => do
      return { observationId, observedRevision, intentPrefix, query := ← decodeRelExpr 0 }
  else throw "relational causal observations are not strictly sorted by id"

end Source

open DurableRelationalCausalObservation (content observationId)

def decodeRelationalCausalObservations :
    Decoder String (List DurableRelationalCausalObservation) := do
  let prefixes ← Source.intentNodes (← Source.len) []
  Source.keyedSequence observationId (Source.observation prefixes)

def SegmentDecodable (segment : List DurableRelationMutation) : Prop :=
  ∀ bytes, encodeRelationMutations segment = .ok bytes →
    decodeRelationMutations bytes = .ok (segment, [])

theorem SegmentDecodable.reads {segment : List DurableRelationMutation}
    (h : SegmentDecodable segment) :
    Restores (encodeRelationMutations segment) decodeRelationMutations segment := by
  apply Restores.of_parses decodeRelationMutations_parses
  intro bytes hbytes
  obtain ⟨used, hused, hbytes⟩ := (decodeRelationMutations_parses _ _ _).mp (h bytes hbytes)
  rwa [hbytes, append_nil]

def rebuild (prefixes : List DurableIntentPrefix) (node : ℕ × List DurableRelationMutation) :
    List DurableIntentPrefix :=
  prefixes ++ [((prefixAt prefixes node.1).getD .empty).append node.2]

section
variable {prefixes more : List DurableIntentPrefix} {ref : ℕ} {found : DurableIntentPrefix}

theorem prefixAt_of_le (h : ref ≤ prefixes.length) :
    ∃ found, prefixAt prefixes ref = some found := by
  unfold prefixAt
  split
  · exact ⟨_, rfl⟩
  · exact ⟨_, getElem?_eq_getElem (by omega)⟩

theorem le_of_prefixAt (h : prefixAt prefixes ref = some found) : ref ≤ prefixes.length := by
  unfold prefixAt at h
  split at h
  · omega
  · obtain ⟨hlt, -⟩ := List.getElem?_eq_some_iff.mp h
    omega

theorem prefixAt_append (h : prefixAt prefixes ref = some found) :
    prefixAt (prefixes ++ more) ref = some found := by
  unfold prefixAt at h ⊢
  split
  · rwa [if_pos ‹_›] at h
  · rw [if_neg ‹_›] at h
    rw [getElem?_append_left (List.getElem?_eq_some_iff.mp h).1]
    exact h

theorem prefixAt_last (prefixes : List DurableIntentPrefix) (last : DurableIntentPrefix) :
    prefixAt (prefixes ++ [last]) (prefixes.length + 1) = some last := by
  simp [prefixAt]

end

namespace IntentNodes

def prefixes (self : IntentNodes) : List DurableIntentPrefix := self.nodes.foldl rebuild []

/-- The nodes can be read in order, and a key names a node with its parent and
its bytes. -/
structure Sound (table : IntentNodes) : Prop where
  count : table.prefixes.length = table.nodes.length
  nodes : ∀ (i : ℕ) node, table.nodes[i]? = some node →
    node.1 ≤ i ∧ node.2 ≠ [] ∧ SegmentDecodable node.2
  keys : ∀ key id, table.nodeByKey.lookup key = some id → ∃ parent segment,
    prefixAt table.prefixes key.1 = some parent ∧ encodeRelationMutations segment = .ok key.2 ∧
      SegmentDecodable segment ∧ prefixAt table.prefixes id = some (parent.append segment)

def Names (self : IntentNodes) (ref : ℕ) (segments : List (List DurableRelationMutation)) : Prop :=
  ∃ found, prefixAt self.prefixes ref = some found ∧ found.segmentsOldestFirst = segments

variable {self self' : IntentNodes} {ref ref' : ℕ} {done : List (List DurableRelationMutation)}

theorem Names.mono (h : self.prefixes <+: self'.prefixes) (hnames : self.Names ref done) :
    self'.Names ref done := by
  obtain ⟨found, hfound, hsegments⟩ := hnames
  obtain ⟨more, hmore⟩ := h
  exact ⟨found, hmore ▸ prefixAt_append hfound, hsegments⟩

/-- One segment: an equal node is found by its bytes, which no other decodable
segment has, or the node is new and comes after its parent. -/
theorem Sound.segment {added : List DurableRelationMutation} (hself : self.Sound)
    (hnames : self.Names ref done) (hne : added ≠ []) (hadded : SegmentDecodable added)
    (hstep : IntentNodes.segment (self, ref) added = .ok (self', ref')) :
    self'.Sound ∧ self.prefixes <+: self'.prefixes ∧ self'.Names ref' (done ++ [added]) := by
  obtain ⟨found, hfound, rfl⟩ := hnames
  unfold IntentNodes.segment at hstep
  rw [if_neg (by simpa using hne), bind_eq_ok] at hstep
  obtain ⟨encoded, hencoded, hstep⟩ := hstep
  split at hstep
  · rename_i existing hexisting
    cases hstep
    obtain ⟨parent, old, hparent, hold, hdecodable, hat⟩ := hself.keys _ _ hexisting
    have hsame : old = added := by
      have h := (hdecodable _ hold).symm.trans (hadded _ hencoded)
      cases h
      rfl
    rw [hfound] at hparent
    cases hparent
    refine ⟨hself, prefix_rfl, found.append added, hsame ▸ hat, ?_⟩
    exact DurableIntentPrefix.segmentsOldestFirst_append hne
  · cases hstep
    have hprefixes : IntentNodes.prefixes
        { nodeByKey := ((ref, encoded), self.nodes.length + 1) :: self.nodeByKey
          nodes := self.nodes ++ [(ref, added)] } =
        self.prefixes ++ [found.append added] := by
      show (self.nodes ++ [(ref, added)]).foldl rebuild [] = _
      rw [foldl_append]
      show rebuild self.prefixes (ref, added) = _
      rw [rebuild, hfound]
      rfl
    have hlast : prefixAt (self.prefixes ++ [found.append added]) (self.nodes.length + 1) =
        some (found.append added) := by
      rw [← hself.count]
      exact prefixAt_last _ _
    refine ⟨⟨?_, ?_, ?_⟩, ?_, ?_⟩
    · rw [hprefixes, length_append, length_append, hself.count]
      rfl
    · intro i node hnode
      rcases lt_or_ge i self.nodes.length with hlt | hge
      · rw [getElem?_append_left hlt] at hnode
        exact hself.nodes i node hnode
      rw [getElem?_append_right hge, getElem?_singleton] at hnode
      split at hnode
      · cases hnode
        have := le_of_prefixAt hfound
        exact ⟨by rw [hself.count] at this; exact this.trans hge, hne, hadded⟩
      · cases hnode
    · intro key id hlookup
      rw [hprefixes]
      rw [lookup_cons] at hlookup
      split at hlookup
      · rename_i hkey
        cases hlookup
        cases eq_of_beq hkey
        exact ⟨found, added, prefixAt_append hfound, hencoded, hadded, hlast⟩
      · obtain ⟨parent, old, hparent, hold, hdecodable, hat⟩ := hself.keys _ _ hlookup
        exact ⟨parent, old, prefixAt_append hparent, hold, hdecodable, prefixAt_append hat⟩
    · rw [hprefixes]
      exact prefix_append _ _
    · refine ⟨found.append added, by rw [hprefixes]; exact hlast, ?_⟩
      exact DurableIntentPrefix.segmentsOldestFirst_append hne

theorem Sound.segments {added : List (List DurableRelationMutation)} (hself : self.Sound)
    (hnames : self.Names ref done)
    (hadded : ∀ segment ∈ added, segment ≠ [] ∧ SegmentDecodable segment)
    (hrun : added.foldlM IntentNodes.segment (self, ref) = .ok (self', ref')) :
    self'.Sound ∧ self.prefixes <+: self'.prefixes ∧ self'.Names ref' (done ++ added) := by
  induction added generalizing self ref done with
  | nil =>
    cases hrun
    rw [append_nil]
    exact ⟨hself, prefix_rfl, hnames⟩
  | cons segment rest ih =>
    rw [foldlM_cons, bind_eq_ok] at hrun
    obtain ⟨⟨middle, ref₁⟩, hstep, hrun⟩ := hrun
    obtain ⟨⟨hne, hdecodable⟩, hrest⟩ := forall_mem_cons.mp hadded
    obtain ⟨hmiddle, hextends, hnames⟩ := hself.segment hnames hne hdecodable hstep
    obtain ⟨hlast, hextends', hnames⟩ := ih hmiddle hnames hrest hrun
    rw [append_assoc] at hnames
    exact ⟨hlast, hextends.trans hextends', hnames⟩

theorem Sound.observations {observations : List DurableRelationalCausalObservation}
    {prefixRefs : List ℕ} (hself : self.Sound)
    (hsegments : ∀ observation ∈ observations,
      ∀ segment ∈ observation.intentPrefix.segmentsOldestFirst,
        segment ≠ [] ∧ SegmentDecodable segment)
    (hrun : self.observations observations = .ok (self', prefixRefs)) :
    self'.Sound ∧ self.prefixes <+: self'.prefixes ∧
      Forall₂ (fun observation prefixRef =>
        self'.Names prefixRef observation.intentPrefix.segmentsOldestFirst)
        observations prefixRefs := by
  induction observations generalizing self prefixRefs with
  | nil =>
    cases hrun
    exact ⟨hself, prefix_rfl, .nil⟩
  | cons observation rest ih =>
    obtain ⟨⟨middle, ref⟩, hloop, hrun⟩ := bind_eq_ok.mp hrun
    obtain ⟨⟨last, refs⟩, hrest, hrun⟩ := bind_eq_ok.mp hrun
    cases hrun
    rw [forall_mem_cons] at hsegments
    obtain ⟨hsound, hextends, hnames⟩ := hself.segments ⟨_, rfl, rfl⟩ hsegments.1 hloop
    obtain ⟨hlast, hextends', hrefs⟩ := ih hsound hsegments.2 hrest
    exact ⟨hlast, hextends.trans hextends', .cons (hnames.mono hextends') hrefs⟩

end IntentNodes

namespace Source
variable {prefixes : List DurableIntentPrefix} {parent found : DurableIntentPrefix}

theorem intentNode_reads {node : ℕ × List DurableRelationMutation}
    (hsize : prefixes.length < UInt64.size) (hparent : prefixAt prefixes node.1 = some parent)
    (hne : node.2 ≠ []) (hdecodable : SegmentDecodable node.2) :
    Restores (encodeIntentNode node) (intentNode prefixes) (parent.append node.2) := by
  have hle := le_of_prefixAt hparent
  have href : (UInt64.ofNat node.1).toNat = node.1 := UInt64.toNat_ofNat_of_lt' (by omega)
  refine (u64_reads _).cons ?_
  rw [href, if_pos hle]
  refine hdecodable.reads.cons ?_
  rw [if_neg (by simpa using hne), hparent]
  exact .nil _

theorem intentNodes_reads (nodes : List (ℕ × List DurableRelationMutation))
    (prefixes : List DurableIntentPrefix) (hsize : prefixes.length + nodes.length < UInt64.size)
    (hnodes : ∀ (i : ℕ) node, nodes[i]? = some node →
      node.1 ≤ prefixes.length + i ∧ node.2 ≠ [] ∧ SegmentDecodable node.2) :
    Restores (writeAll encodeIntentNode nodes) (intentNodes nodes.length prefixes)
      (nodes.foldl rebuild prefixes) := by
  induction nodes generalizing prefixes with
  | nil => exact .nil _
  | cons node rest ih =>
    rw [length_cons] at hsize
    obtain ⟨hle, hne, hdecodable⟩ := hnodes 0 node rfl
    obtain ⟨parent, hparent⟩ := prefixAt_of_le hle
    have hrebuild : rebuild prefixes node = prefixes ++ [parent.append node.2] := by
      rw [rebuild, hparent]
      rfl
    rw [foldl_cons, hrebuild]
    refine (intentNode_reads (by omega) hparent hne hdecodable).join (ih _ ?_ ?_)
    · rw [length_append, length_singleton]
      omega
    · intro i child hchild
      have h := hnodes (i + 1) child hchild
      rw [length_append, length_singleton]
      exact ⟨by omega, h.2⟩

theorem u32_reads (x : UInt32) : Restores (.ok (pushU32 x) : Except CodecError _) u32 x :=
  .of_parses u32_parses fun _ h => by cases h; rfl

theorem observation_reads {previous : Option UInt32} {prefixRef : ℕ}
    {written : DurableRelationalCausalObservation} (hsize : prefixes.length < UInt64.size)
    (hlt : ascends previous written.observationId)
    (hfound : prefixAt prefixes prefixRef = some found) (hquery : written.query.Ordered) :
    Restores (encodeObservation (written, prefixRef)) (observation prefixes previous)
      { written with intentPrefix := found } := by
  have hle := le_of_prefixAt hfound
  have href : (UInt64.ofNat prefixRef).toNat = prefixRef := UInt64.toNat_ofNat_of_lt' (by omega)
  refine (u32_reads _).cons ?_
  rw [if_pos hlt]
  refine (u64_reads _).cons ((u64_reads _).cons ?_)
  rw [href, hfound]
  exact (relExprWithin_reads _ _ hquery).cons (.nil _)

theorem observations_reads {nodes : IntentNodes} {prefixRefs : List ℕ}
    {observations : List DurableRelationalCausalObservation}
    (hsize : nodes.prefixes.length < UInt64.size) (previous : Option UInt32)
    (hids : Ascending observationId previous observations)
    (hqueries : ∀ observation ∈ observations, observation.query.Ordered)
    (hrefs : Forall₂ (fun observation prefixRef =>
      nodes.Names prefixRef observation.intentPrefix.segmentsOldestFirst)
      observations prefixRefs) :
    ∃ decoded, decoded.map content =
        observations.map content ∧
      Restores (writeAll encodeObservation (observations.zip prefixRefs))
        (Decoder.keyed observationId
          (observation nodes.prefixes) observations.length previous) decoded := by
  induction hrefs generalizing previous with
  | nil => exact ⟨[], rfl, .nil _⟩
  | @cons written prefixRef rest refs hnames hrefs ih =>
    obtain ⟨hquery, hqueries⟩ := forall_mem_cons.mp hqueries
    obtain ⟨found, hfound, hsegments⟩ := hnames
    obtain ⟨decoded, hcontent, hreads⟩ := ih _ hids.2 hqueries
    refine ⟨{ written with intentPrefix := found } :: decoded, ?_, ?_⟩
    · rw [map_cons, map_cons, hcontent]
      simp only [content, hsegments]
    · exact (observation_reads hsize hids.1 hfound hquery).join (hreads.map _)

end Source

/-- Observations are read back with the same ids, revisions and queries, and with prefixes of the
same segments, however the prefixes share their nodes. -/
theorem decodeRelationalCausalObservations_encode
    (observations : List DurableRelationalCausalObservation)
    (hids : observations.Pairwise fun a b => a.observationId < b.observationId)
    (hqueries : ∀ observation ∈ observations, observation.query.Ordered)
    (hsegments : ∀ observation ∈ observations,
      ∀ segment ∈ observation.intentPrefix.segmentsOldestFirst,
        segment ≠ [] ∧ SegmentDecodable segment)
    (bytes : List UInt8) (hencode : encodeRelationalCausalObservations observations = .ok bytes)
    (suffix : List UInt8) :
    ∃ decoded, decodeRelationalCausalObservations (bytes ++ suffix) = .ok (decoded, suffix) ∧
      decoded.map content = observations.map content := by
  obtain ⟨⟨nodes, prefixRefs⟩, hrun, hencode⟩ := bind_eq_ok.mp hencode
  have hempty : IntentNodes.Sound {} := ⟨rfl, nofun, nofun⟩
  obtain ⟨hnodes, -, hrefs⟩ := hempty.observations hsegments hrun
  have hsize : nodes.nodes.length < UInt64.size := by
    obtain ⟨len, hlen, -⟩ := bind_eq_ok.mp hencode
    have hle := (pushLen_eq_ok.mp hlen).1
    exact lt_of_le_of_lt hle (by decide)
  have hascending : Ascending observationId none observations :=
    ascending_iff_pairwise.mpr (hids.imp fun h => Std.compare_eq_lt.mpr h)
  obtain ⟨decoded, hcontent, hreads⟩ := Source.observations_reads (hnodes.count ▸ hsize) none
    hascending hqueries hrefs
  refine ⟨decoded, ?_, hcontent⟩
  have hlen (n : ℕ) : Restores (pushLen n) Source.len n := .of_parses Source.len_parses fun _ h => h
  have htable := Source.intentNodes_reads nodes.nodes [] (by simpa using hsize) (by
    intro i node hnode
    simpa using hnodes.nodes i node hnode)
  exact (hlen _).cons (htable.cons ((hlen _).cons hreads.last)) bytes hencode suffix

def touchedRelation (relation : SemanticId) : List DurableRelationMutation :=
  [{ relation, inserted := [], removed := [], objectFieldWrites := []
     authorization := ⟨true, false, false, false, false, false⟩ }]

def sharedPrefixes : List DurableRelationalCausalObservation :=
  let first := DurableIntentPrefix.empty.append (touchedRelation 1)
  [⟨3, 10, first.append (touchedRelation 2), .promoteToBag (.scan 1)⟩, ⟨7, 11, first, .scan 2⟩]

theorem decodeRelationalCausalObservations_encode_shared :
    ∃ bytes, encodeRelationalCausalObservations sharedPrefixes = .ok bytes ∧
      ∃ decoded, decodeRelationalCausalObservations (bytes ++ [5]) = .ok (decoded, [5]) ∧
        decoded.map content = sharedPrefixes.map content := by
  have hone : touchedRelation 1 ≠ [] ∧ SegmentDecodable (touchedRelation 1) :=
    ⟨nofun, fun bytes h => by cases h; rfl⟩
  have htwo : touchedRelation 2 ≠ [] ∧ SegmentDecodable (touchedRelation 2) :=
    ⟨nofun, fun bytes h => by cases h; rfl⟩
  refine ⟨_, rfl, decodeRelationalCausalObservations_encode sharedPrefixes ?_ ?_ ?_ _ rfl [5]⟩
  · decide
  · exact forall_mem_cons.mpr ⟨trivial, forall_mem_singleton.mpr trivial⟩
  · refine forall_mem_cons.mpr ⟨?_, forall_mem_singleton.mpr ?_⟩
    · exact forall_mem_cons.mpr ⟨hone, forall_mem_singleton.mpr htwo⟩
    · exact forall_mem_singleton.mpr hone

end Cfmd.Durability
