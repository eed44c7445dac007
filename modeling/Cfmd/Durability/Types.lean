import Cfmd.Types
import Mathlib.Data.UInt

/-! Identifiers and errors of the durability layer. -/

namespace Cfmd.Durability

abbrev RevisionId := UInt64
abbrev SchemaRevisionId := UInt64
abbrev IdempotencyEpoch := UInt64
abbrev ClientTransactionId := Id128
abbrev RevisionEffectId := Id128

inductive CodecError
  | lengthOverflow
  | collectionTooLarge
  | valueNestingTooDeep
  | semanticModuleUnavailable
deriving DecidableEq

inductive DurabilityError
  | poisoned
  | lsnExhausted
  | payloadTooLarge
  | encode (error : CodecError)
  | corruption (offset : ℕ) (reason : String)
  | protocol (offset : ℕ) (reason : String)
deriving DecidableEq

end Cfmd.Durability
