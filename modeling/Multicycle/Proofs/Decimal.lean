import Multicycle.Proofs.Grammar
import Multicycle.Register.Name

/-! Runs of decimal digits and the numbers they stand for, whatever their length. -/
namespace Multicycle.Text

def DecimalDigit (c : Char) (d : Nat) : Prop := "0123456789".toList[d]? = some c

instance (c : Char) (d : Nat) : Decidable (DecimalDigit c d) := inferInstanceAs (Decidable (_ = _))

/-- A run of digits with the value `n`, most significant first. -/
structure Decimal (digits : List Char) (n : Nat) : Prop where
  ne_nil : digits ≠ []
  values : ∃ values, List.Forall₂ DecimalDigit digits values ∧ Nat.ofDigits 10 values.reverse = n

variable {c : Char} {d n start : Nat} {digits : List Char} {values : List Nat}

theorem decimalDigit_ofNat : ∀ n < 58, (Char.ofNat n).isDigit →
    DecimalDigit (Char.ofNat n) (digitValue (Char.ofNat n)) := by decide

theorem all_isDigit : ∀ d < 10,
    "0123456789".toList[d]?.all fun c => c.isDigit && digitValue c == d := by decide

theorem DecimalDigit.lt (h : DecimalDigit c d) : d < 10 := (List.getElem?_eq_some_iff.mp h).1

theorem decimalDigit_iff : DecimalDigit c d ↔ c.isDigit ∧ digitValue c = d := by
  constructor
  · intro h
    have hall := all_isDigit d h.lt
    rw [show "0123456789".toList[d]? = some c from h, Option.all_some, Bool.and_eq_true,
      beq_iff_eq] at hall
    exact hall
  · rintro ⟨hdigit, rfl⟩
    have hle : c.toNat ≤ 57 := by
      rw [Char.isDigit, Bool.and_eq_true, decide_eq_true_iff, decide_eq_true_iff] at hdigit
      exact hdigit.2
    have hc := decimalDigit_ofNat c.toNat (by omega)
    rw [Char.ofNat_toNat] at hc
    exact hc hdigit

theorem forall₂_decimalDigit_iff :
    List.Forall₂ DecimalDigit digits values ↔
      (∀ c ∈ digits, c.isDigit) ∧ digits.map digitValue = values := by
  induction digits generalizing values with
  | nil =>
    rw [List.forall₂_nil_left_iff, List.map_nil]
    exact ⟨fun h => ⟨List.forall_mem_nil _, h.symm⟩, fun h => h.2.symm⟩
  | cons c digits ih =>
    simp only [List.forall₂_cons_left_iff, ih, decimalDigit_iff, List.forall_mem_cons,
      List.map_cons]
    constructor
    · rintro ⟨d, ds, ⟨hc, rfl⟩, ⟨hdigits, rfl⟩, rfl⟩
      exact ⟨⟨hc, hdigits⟩, rfl⟩
    · rintro ⟨⟨hc, hdigits⟩, rfl⟩
      exact ⟨_, _, ⟨hc, rfl⟩, ⟨hdigits, rfl⟩, rfl⟩

theorem decimal_iff :
    Decimal digits n ↔ digits ≠ [] ∧ (∀ c ∈ digits, c.isDigit) ∧
      ofDigits 10 (digits.map digitValue) = n := by
  constructor
  · rintro ⟨hne, values, hvalues, rfl⟩
    obtain ⟨hdigits, rfl⟩ := forall₂_decimalDigit_iff.mp hvalues
    exact ⟨hne, hdigits, ofDigits_eq 10 _⟩
  · rintro ⟨hne, hdigits, rfl⟩
    exact ⟨hne, _, forall₂_decimalDigit_iff.mpr ⟨hdigits, rfl⟩, (ofDigits_eq 10 _).symm⟩

theorem decimal_of_all (hne : digits ≠ []) (h : digits.all Char.isDigit) :
    Decimal digits (ofDigits 10 (digits.map digitValue)) :=
  decimal_iff.mpr ⟨hne, List.all_eq_true.mp h, rfl⟩

theorem decimal_toDigits (n : Nat) : Decimal (Nat.toDigits 10 n) n := by
  have hdigits : ∀ c ∈ Nat.toDigits 10 n, c.isDigit :=
    fun c hc => Nat.isDigit_of_mem_toDigits (by decide) (by decide) hc
  refine decimal_iff.mpr ⟨Nat.toDigits_ne_nil, hdigits, ?_⟩
  unfold ofDigits
  rw [List.foldl_map]
  exact Nat.ofDigitChars_toDigits (by decide) (by decide)

theorem le_foldl (start : Nat) (values : List Nat) :
    start ≤ values.foldl (fun n d => 10 * n + d) start := by
  induction values generalizing start with
  | nil => exact Nat.le_refl start
  | cons d values ih =>
    have hle : start ≤ 10 * start + d := by omega
    exact hle.trans (ih _)

end Multicycle.Text

namespace Multicycle.Register

open Text

variable {c : Char} {n start : Nat} {digits : List Char}

theorem appendDigit?_eq_some_iff :
    appendDigit? start c = some n ↔
      c.isDigit ∧ 10 * start + digitValue c = n ∧ n < UInt64.size := by
  unfold appendDigit?
  split
  next h =>
    rw [Bool.and_eq_true, decide_eq_true_iff] at h
    rw [Option.some.injEq]
    constructor
    · rintro rfl
      exact ⟨h.1, rfl, h.2⟩
    · exact fun h => h.2.1
  next h =>
    rw [Bool.and_eq_true, decide_eq_true_iff] at h
    refine iff_of_false nofun ?_
    rintro ⟨hdigit, rfl, hlt⟩
    exact h ⟨hdigit, hlt⟩

/-- No number on the way is lost, since the last one is the largest. -/
theorem foldlM_appendDigit?_eq_some_iff (hstart : start < UInt64.size) :
    digits.foldlM appendDigit? start = some n ↔
      (∀ c ∈ digits, c.isDigit) ∧
        (digits.map digitValue).foldl (fun n d => 10 * n + d) start = n ∧ n < UInt64.size := by
  induction digits generalizing start with
  | nil =>
    simp only [List.foldlM_nil, Option.pure_def, Option.some.injEq, List.map_nil, List.foldl_nil,
      List.not_mem_nil, false_implies, implies_true, true_and]
    constructor
    · rintro rfl
      exact ⟨rfl, hstart⟩
    · exact fun h => h.1
  | cons c digits ih =>
    simp only [List.foldlM_cons, Option.bind_eq_bind, Option.bind_eq_some_iff,
      appendDigit?_eq_some_iff, List.forall_mem_cons, List.map_cons, List.foldl_cons]
    constructor
    · rintro ⟨m, ⟨hc, rfl, hlt⟩, h⟩
      obtain ⟨hdigits, hn⟩ := (ih hlt).mp h
      exact ⟨⟨hc, hdigits⟩, hn⟩
    · rintro ⟨⟨hc, hdigits⟩, rfl, hlt⟩
      have hle := le_foldl (10 * start + digitValue c) (digits.map digitValue)
      have hnext := hle.trans_lt hlt
      exact ⟨_, ⟨hc, rfl, hnext⟩, (ih hnext).mpr ⟨hdigits, rfl, hlt⟩⟩

theorem decimal?_eq_some_iff :
    decimal? digits = some n ↔ Decimal digits n ∧ n < UInt64.size := by
  unfold decimal?
  rw [decimal_iff]
  split
  next hempty =>
    refine iff_of_false nofun fun h => h.1.1 ?_
    exact List.isEmpty_iff.mp hempty
  next hne =>
    rw [foldlM_appendDigit?_eq_some_iff (by decide), ← and_assoc, ← and_assoc]
    refine and_congr_left fun _ => and_congr_left fun _ => ?_
    rw [List.isEmpty_iff] at hne
    exact ⟨fun h => ⟨hne, h⟩, fun h => h.2⟩

end Multicycle.Register
