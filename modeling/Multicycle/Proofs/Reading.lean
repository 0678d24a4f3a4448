import Multicycle.Json.Reader
import Multicycle.Proofs.Lexing

/-! The library that reads JSON texts token by token does what is documented. -/
namespace Multicycle.Json

namespace Reader

variable {α : Type} {r : Reader α} {s s' : r.State} {t : Token} {ts us : List Token} {v : α}
  {x : r.State ⊕ α}

/-- From the state `s` the tokens lead to another state, or the last of them completes the value. -/
inductive Runs (r : Reader α) : r.State → List Token → r.State ⊕ α → Prop
  | nil (s : r.State) : Runs r s [] (.inl s)
  | last {s : r.State} {t : Token} {v : α} (h : r.step s t = .ok (.inr v)) : Runs r s [t] (.inr v)
  | cons {s s' : r.State} {t : Token} {ts : List Token} {x : r.State ⊕ α}
      (h : r.step s t = .ok (.inl s')) (hs : Runs r s' ts x) : Runs r s (t :: ts) x

theorem Runs.append (h : r.Runs s ts (.inl s')) (h' : r.Runs s' us x) : r.Runs s (ts ++ us) x := by
  generalize hy : (Sum.inl s' : r.State ⊕ α) = y at h
  induction h with
  | nil s =>
    cases hy
    exact h'
  | last _ => cases hy
  | cons hstep _ ih => exact .cons hstep (ih hy)

theorem Runs.drive (h : r.Runs s ts (.inr v)) : r.drive s ts = .ok (v, []) := by
  generalize hy : (Sum.inr v : r.State ⊕ α) = y at h
  induction h with
  | nil s => cases hy
  | last hstep =>
    cases hy
    rw [Reader.drive, hstep]
  | cons hstep _ ih =>
    rw [Reader.drive, hstep]
    exact ih hy

theorem Runs.congr (hs : r.Runs s' (t :: ts) x) (h : r.step s t = r.step s' t) :
    r.Runs s (t :: ts) x := by
  cases hs with
  | last hstep => exact .last (h.trans hstep)
  | cons hstep hs => exact .cons (h.trans hstep) hs

end Reader

/-! Values that are passed over. -/

section Skip

open Reader

variable {frame : Frame} {outer : List Frame} {items : List (List Token)}

end Skip

/-! Records. -/

section Record

open Reader

variable {σ : Type} {D : Declaration Reader σ} {g g' given : Given D} {f : D.Field} {q : Quoted}
  {ts : List Token} {members : List Member}

variable {m : Member} {names : List (List Char)}

end Record

end Multicycle.Json
