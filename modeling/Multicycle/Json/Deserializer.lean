/-! The interface of a library that reads values of Lean types from JSON texts. -/
namespace Multicycle.Json

/-- A type of records to be read from objects. A field left out falls back to its own value. -/
structure Declaration (Reader : Type → Type 1) (σ : Type) where
  Field : Type
  [decEq : DecidableEq Field]
  fields : List Field
  mem_fields : ∀ f, f ∈ fields
  key : Field → String
  key_injective : ∀ {f g}, key f = key g → f = g
  Value : Field → Type
  reader : ∀ f, Reader (Value f)
  fallback : ∀ f, Value f
  build : (∀ f, Value f) → σ

/-- Readers of types, made from those of other types, and what a reader makes of a text. -/
structure Deserializer (ε : Type) where
  Reader : Type → Type 1
  bool : Reader Bool
  /-- Naturals of 64 bits. -/
  natural : Reader Nat
  optional {α : Type} : Reader α → Reader (Option α)
  record {σ : Type} : Declaration Reader σ → Reader σ
  fromText {α : Type} : Reader α → String → Except ε α

end Multicycle.Json
