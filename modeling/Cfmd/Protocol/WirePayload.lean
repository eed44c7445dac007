import Cfmd.Protocol.WireCanonical

/-! Payloads as a whole. The products of a decoded message are maps; the payload is the one
the encoder writes for it exactly if it lists their fields in order. -/

namespace Cfmd.Protocol
open Lib

variable {limits : WireLimits} {payload : List UInt8} {request : HostedRequest}
  {response : WireResponse}

/-- A payload that lists the fields of every product in strictly increasing order. -/
def RequestInOrder (payload : List UInt8) (limits : WireLimits) : Prop :=
  ∃ request, decodeRequestPayloadIn .asListed payload limits = .ok request ∧ request.Ordered

def ResponseInOrder (payload : List UInt8) (limits : WireLimits) : Prop :=
  ∃ response, decodeResponsePayloadIn .asListed payload limits = .ok response ∧ response.Ordered

/-- A codec whose decoder can also keep what it reads as it is listed. -/
theorem encode_iff_listed {α : Type} {enc : α → Except ProtocolError (List UInt8)}
    {dec decListed : List UInt8 → Except ProtocolError α} {Ordered : α → Prop}
    (hread : ∀ a payload, Ordered a → enc a = .ok payload → dec payload = .ok a)
    (hlisted : ∀ a payload, enc a = .ok payload → decListed payload = .ok a)
    (hwrite : ∀ payload a, decListed payload = .ok a → enc a = .ok payload)
    (hordered : ∀ payload a, dec payload = .ok a → Ordered a) {a : α} (h : dec payload = .ok a) :
    enc a = .ok payload ↔ ∃ b, decListed payload = .ok b ∧ Ordered b := by
  constructor
  · intro henc
    exact ⟨a, hlisted a payload henc, hordered payload a h⟩
  · rintro ⟨b, hb, hbordered⟩
    -- the two decoders agree on what is in order
    have hb' := hread b payload hbordered (hwrite payload b hb)
    rw [h] at hb'
    cases hb'
    exact hwrite payload a hb

theorem request_roundTrip (order : FieldOrder)
    (hkeeps : ∀ value ∈ request.values, order.Keeps value)
    (h : encodeRequestPayload request limits = .ok payload) :
    decodeRequestPayloadIn order payload limits = .ok request :=
  decodePayload_of_emits (hostedRequest_emits hkeeps) h

theorem response_roundTrip (order : FieldOrder)
    (hkeeps : ∀ value ∈ response.values, order.Keeps value)
    (h : encodeResponsePayload response limits = .ok payload) :
    decodeResponsePayloadIn order payload limits = .ok response :=
  decodePayload_of_emits (wireResponse_emits hkeeps) h

theorem request_ordered (h : decodeRequestPayload payload limits = .ok request) : request.Ordered :=
  (decodePayload_reads hostedRequest_reads h).2 nofun

theorem response_ordered
    (h : decodeResponsePayload payload limits = .ok response) : response.Ordered :=
  (decodePayload_reads wireResponse_reads h).2 nofun

/-- The payload format: what is encoded is decoded, and what is decoded is encoded again as
the same payload exactly if that lists the fields of products in order. -/
theorem payload_canonical_iff (limits : WireLimits) :
    ((∀ request payload, HostedRequest.Ordered request →
        encodeRequestPayload request limits = .ok payload →
        decodeRequestPayload payload limits = .ok request) ∧
      ∀ payload request, decodeRequestPayload payload limits = .ok request →
        (encodeRequestPayload request limits = .ok payload ↔ RequestInOrder payload limits)) ∧
    (∀ response payload, WireResponse.Ordered response →
        encodeResponsePayload response limits = .ok payload →
        decodeResponsePayload payload limits = .ok response) ∧
      ∀ payload response, decodeResponsePayload payload limits = .ok response →
        (encodeResponsePayload response limits = .ok payload ↔ ResponseInOrder payload limits) := by
  have hrequest : ∀ request payload, HostedRequest.Ordered request →
      encodeRequestPayload request limits = .ok payload →
      decodeRequestPayload payload limits = .ok request :=
    fun request payload => request_roundTrip .byId
  have hresponse : ∀ response payload, WireResponse.Ordered response →
      encodeResponsePayload response limits = .ok payload →
      decodeResponsePayload payload limits = .ok response :=
    fun response payload => response_roundTrip .byId
  refine ⟨⟨hrequest, fun payload request h => ?_⟩, hresponse, fun payload response h => ?_⟩
  · exact encode_iff_listed hrequest
      (fun request payload => request_roundTrip .asListed fun _ _ => trivial)
      (fun payload request h => (decodePayload_reads hostedRequest_reads h).1 rfl)
      (fun payload request => request_ordered) h
  · exact encode_iff_listed hresponse
      (fun response payload => response_roundTrip .asListed fun _ _ => trivial)
      (fun payload response h => (decodePayload_reads wireResponse_reads h).1 rfl)
      (fun payload response => response_ordered) h

/-- A query for the rows of a relation whose first column is a product of two fields. -/
def filterPayload (first second : ℕ) : List UInt8 :=
  [1, 0, 1, 0] ++ toBeBytes 16 9 ++ toBeBytes 4 0 ++
    [7] ++ toBeBytes 4 2 ++ toBeBytes 16 first ++ [0] ++ toBeBytes 16 second ++ [0] ++
    toBeBytes 16 5

/-- The fields may be listed in either order, and the message is the same. -/
theorem filterPayload_reordered :
    ∃ request, decodeRequestPayload (filterPayload 2 1) default = .ok request ∧
      encodeRequestPayload request default = .ok (filterPayload 1 2) ∧
      decodeRequestPayload (filterPayload 1 2) default = .ok request ∧
      filterPayload 2 1 ≠ filterPayload 1 2 := by
  have hrun : (do
      let request ← decodeRequestPayload (filterPayload 2 1) default
      encodeRequestPayload request default) = .ok (filterPayload 1 2) := by
    decide +kernel
  obtain ⟨request, hdecode, hencode⟩ := bind_eq_ok.mp hrun
  have hagain := request_roundTrip .byId (request_ordered hdecode) hencode
  exact ⟨request, hdecode, hencode, hagain, by decide⟩

theorem payload_canonical_of_ordered :
    ∃ request, decodeRequestPayload (filterPayload 1 2) default = .ok request ∧
      encodeRequestPayload request default = .ok (filterPayload 1 2) ∧
      RequestInOrder (filterPayload 1 2) default := by
  have hrun : (do
      let request ← decodeRequestPayload (filterPayload 1 2) default
      encodeRequestPayload request default) = .ok (filterPayload 1 2) := by
    decide +kernel
  obtain ⟨request, hdecode, hencode⟩ := bind_eq_ok.mp hrun
  exact ⟨request, hdecode, hencode, ((payload_canonical_iff default).1.2 _ _ hdecode).mp hencode⟩

end Cfmd.Protocol
