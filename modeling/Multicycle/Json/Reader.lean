import Multicycle.Json.Deserializer
import Multicycle.Json.Token

/-! A library that reads JSON texts token by token. -/
namespace Multicycle.Json

/-- Reads a value from its tokens: each leads on to another state or completes the value. -/
structure Reader (α : Type) where
  State : Type
  start : State
  step : State → Token → Except Fault (State ⊕ α)

namespace Reader

variable {α σ : Type}

/-- The value read from the state `s` on, and the tokens behind it. -/
def drive (r : Reader α) (s : r.State) : List Token → Except Fault (α × List Token)
  | [] => .error .truncated
  | t :: ts =>
    match r.step s t with
    | .error f => .error f
    | .ok (.inl s) => r.drive s ts
    | .ok (.inr v) => .ok (v, ts)

/-- A text holds one value and nothing behind it. -/
def read (r : Reader α) (text : String) : Except Fault α :=
  match r.drive r.start (tokens text.toList) with
  | .error f => .error f
  | .ok (v, []) => .ok v
  | .ok (_, _ :: _) => .error .malformed

def ofToken (f : Token → Except Fault α) : Reader α where
  State := Unit
  start := ()
  step _ t := (f t).map .inr

def bool : Reader Bool := ofToken fun
  | .bool b => .ok b
  | t => .error t.fault

def natural : Reader Nat := ofToken fun
  | .number n => n.natural
  | t => .error t.fault

/-- The state `none` is that before the first token. -/
def optional (r : Reader α) : Reader (Option α) where
  State := Option r.State
  start := none
  step
    | none, .null => .ok (.inr none)
    | none, t => (r.step r.start t).map (Sum.map some some)
    | some s, t => (r.step s t).map (Sum.map some some)

end Reader

/-! Values that are passed over. -/

inductive Frame where
  | object
  | array
  deriving DecidableEq, Repr

def Frame.closer : Frame → Token
  | object => .closeBrace
  | array => .closeBracket

/-- What comes next in a value that is passed over, with what is open, innermost first. -/
inductive Skip where
  | value (frames : List Frame)
  | first (frame : Frame) (outer : List Frame)
  | key (outer : List Frame)
  | colon (outer : List Frame)
  | separator (frame : Frame) (outer : List Frame)
  deriving DecidableEq, Repr

namespace Skip

def after : List Frame → Skip ⊕ Unit
  | [] => .inr ()
  | frame :: outer => .inl (.separator frame outer)

def stepValue (frames : List Frame) : Token → Except Fault (Skip ⊕ Unit)
  | .openBrace => .ok (.inl (.first .object frames))
  | .openBracket => .ok (.inl (.first .array frames))
  | t => t.ignore.map fun _ => after frames

def stepKey (outer : List Frame) : Token → Except Fault (Skip ⊕ Unit)
  | .string q =>
    match q.fault with
    | some f => .error f
    | none => .ok (.inl (.colon outer))
  | _ => .error .malformed

def item (outer : List Frame) : Frame → Skip
  | .object => .key outer
  | .array => .value (.array :: outer)

def stepItem (outer : List Frame) : Frame → Token → Except Fault (Skip ⊕ Unit)
  | .object => stepKey outer
  | .array => stepValue (.array :: outer)

def step : Skip → Token → Except Fault (Skip ⊕ Unit)
  | value frames, t => stepValue frames t
  | first frame outer, t => if t = frame.closer then .ok (after outer) else stepItem outer frame t
  | key outer, t => stepKey outer t
  | colon outer, t =>
    if t = .colon then .ok (.inl (.value (.object :: outer))) else .error .malformed
  | separator frame outer, t =>
    if t = frame.closer then .ok (after outer)
    else if t = .comma then .ok (.inl (item outer frame)) else .error .malformed

end Skip

namespace Reader

variable {σ : Type}

end Reader

/-! Records. -/

section Record

variable {σ : Type} (D : Declaration Reader σ)

instance : DecidableEq D.Field := D.decEq

def Declaration.field? (name : List Char) : Option D.Field :=
  D.fields.find? fun f => (D.key f).toList == name

/-- The fields that have been read. -/
abbrev Given : Type := (f : D.Field) → Option (D.Value f)

variable {D}

def Given.set (g : Given D) (f : D.Field) (v : D.Value f) : Given D := fun f' =>
  if h : f = f' then some (h ▸ v) else g f'

def Given.build (g : Given D) : σ := D.build fun f => (g f).getD (D.fallback f)

variable (D)

/-- What comes next in a record. It may be written as the array of its first fields as well. -/
inductive Stage where
  | opening
  | firstMember
  | member
  | colon (f : Option D.Field)
  | value (f : D.Field) (s : (D.reader f).State)
  | skipped (s : Skip)
  | memberEnd
  | firstElement
  | element (f : D.Field) (ahead : List D.Field) (s : (D.reader f).State)
  | elementEnd (ahead : List D.Field)

variable {D}

namespace Stage

/-- A field that comes a second time is refused at its key. -/
def stepKey (g : Given D) : Token → Except Fault (Stage D)
  | .string q =>
    match q.text with
    | .error f => .error f
    | .ok name =>
      match D.field? name with
      | none => .ok (.colon none)
      | some f => if (g f).isSome then .error .mismatch else .ok (.colon (some f))
  | _ => .error .malformed

def stepColon : Option D.Field → Token → Except Fault (Stage D)
  | none, .colon => .ok (.skipped (.value []))
  | some f, .colon => .ok (.value f (D.reader f).start)
  | _, _ => .error .malformed

def stepElement (g : Given D) (f : D.Field) (ahead : List D.Field) (s : (D.reader f).State)
    (t : Token) : Except Fault (Stage D × Given D) :=
  ((D.reader f).step s t).map fun
    | .inl s => (.element f ahead s, g)
    | .inr v => (.elementEnd ahead, g.set f v)

def step (g : Given D) : Stage D → Token → Except Fault (Stage D × Given D ⊕ σ)
  | opening, .openBrace => .ok (.inl (.firstMember, g))
  | opening, .openBracket => .ok (.inl (.firstElement, g))
  | opening, t => .error t.fault
  | firstMember, .closeBrace => .ok (.inr g.build)
  | firstMember, t => (stepKey g t).map fun next => .inl (next, g)
  | member, t => (stepKey g t).map fun next => .inl (next, g)
  | colon f, t => (stepColon f t).map fun next => .inl (next, g)
  | value f s, t => ((D.reader f).step s t).map fun
    | .inl s => .inl (.value f s, g)
    | .inr v => .inl (.memberEnd, g.set f v)
  | skipped s, t => (s.step t).map fun
    | .inl s => .inl (.skipped s, g)
    | .inr () => .inl (.memberEnd, g)
  | memberEnd, .closeBrace => .ok (.inr g.build)
  | memberEnd, .comma => .ok (.inl (.member, g))
  | memberEnd, _ => .error .malformed
  | firstElement, .closeBracket => .ok (.inr g.build)
  | firstElement, t =>
    match D.fields with
    | [] => .error .malformed
    | f :: ahead => (stepElement g f ahead (D.reader f).start t).map .inl
  | element f ahead s, t => (stepElement g f ahead s t).map .inl
  | elementEnd _, .closeBracket => .ok (.inr g.build)
  | elementEnd (f :: ahead), .comma => .ok (.inl (.element f ahead (D.reader f).start, g))
  | elementEnd _, _ => .error .malformed

end Stage

def Reader.record (D : Declaration Reader σ) : Reader σ where
  State := Stage D × Given D
  start := (.opening, fun _ => none)
  step s t := s.1.step s.2 t

end Record

def deserializer : Deserializer Fault where
  Reader := Reader
  bool := .bool
  natural := .natural
  optional := .optional
  record := .record
  fromText := Reader.read

end Multicycle.Json
