import Mathlib.Data.List.Induction
import Multicycle.Proofs.Accounting
import Multicycle.Proofs.InFlight

/-! The phases in which the ticks of an instruction are made: those of its path, each gone through
once, also where ticks fail and are made again. -/
namespace Multicycle

/-- A tick on record: the phase it was made in, and what it came to. -/
structure Visit where
  phase : Phase
  result : Except Fault Status

namespace Visit

/-- The tick has brought something about. -/
def committed (v : Visit) : Bool :=
  match v.result with
  | .ok .running | .ok (.retired _) => true
  | _ => false

def completes (v : Visit) : Bool :=
  match v.result with
  | .ok (.retired _) => true
  | _ => false

/-- A tick within an instruction, that has taken it further or has failed. -/
def Inner (v : Visit) : Prop := v.result = .ok .running ∨ ∃ f, v.result = .error f

theorem Inner.not_completes {v : Visit} (h : v.Inner) : v.completes = false := by
  rcases h with h | ⟨f, h⟩ <;> simp [completes, h]

end Visit

/-- The phases that ticks have gone through. -/
def passed (visits : List Visit) : List Phase := (visits.filter (·.committed)).map (·.phase)

theorem passed_append (us vs : List Visit) : passed (us ++ vs) = passed us ++ passed vs := by
  simp [passed]

theorem passed_eq_map {visits : List Visit} (h : ∀ v ∈ visits, v.committed) :
    passed visits = visits.map (·.phase) := by
  rw [passed, List.filter_eq_self.mpr h]

/-- A core and its memory on the way, and the ticks made so far. -/
structure Walk (σ : Type) where
  core : Core
  memory : σ
  visits : List Visit := []

namespace Walk

variable {σ : Type} [Memory σ]

def tick (x : Walk σ) (edit : σ → σ) : Walk σ :=
  let t := x.core.tick (edit x.memory)
  ⟨t.core, t.memory, x.visits ++ [⟨x.core.phase, t.result⟩]⟩

/-- One more tick, unless an instruction is complete. -/
def follow (x : Walk σ) (edit : σ → σ) : Walk σ :=
  if x.visits.any (·.completes) then x else x.tick edit

end Walk

namespace Opcode

theorem nodup_path (op : Opcode) : op.path.Nodup := by cases op <;> decide

end Opcode

namespace Core

variable {σ : Type} [Memory σ] {c : Core} {m : σ} {op : Opcode}

/-- Ticks up to the completion of one instruction, with an edit by the owner before each. -/
def follow (c : Core) (m : σ) (edits : List (σ → σ)) : Walk σ := edits.foldl Walk.follow ⟨c, m, []⟩

theorem instr_tick (hf : c.phase ≠ .fetch) : (c.tick m).core.latches.instr = c.latches.instr := by
  cases c.ends m with
  | rejected _ ht | denied _ _ ht | ended _ _ ht => rw [ht]
  | committed hp _ _ ht =>
    rw [ht]
    exact instr_commit hp hf _

theorem opcode_of_retired {r : Retirement} (h : (c.tick m).result = .ok (.retired r)) :
    Opcode.decode c.latches.instr = .ok r.opcode := by
  cases c.ends m with
  | rejected _ ht | denied _ _ ht | ended _ _ ht =>
    rw [ht] at h
    cases h
  | @committed p _ _ hp _ _ ht =>
    rw [ht] at h
    cases hr : p.retiring with
    | none => simp [status, hr] at h
    | some op =>
      simp only [status, hr, Option.elim_some, Except.ok.injEq, Status.retired.injEq] at h
      rw [← h]
      exact (retiring_eq_some hp hr).2

/-- A tick as the path sees it: it fails, goes on to the next phase, or was made in the last. -/
inductive Advances (c : Core) (op : Opcode) : Except Fault Status → Core → Prop where
  | failed (f : Fault) : Advances c op (.error f) c
  | running {c' : Core} (phase : c'.phase ≠ .fetch) (position : c'.phase.position = c.phase.position + 1)
      (cycle : c'.cycle = c.cycle + 1) : Advances c op (.ok .running) c'
  | retired {c' : Core} (r : Retirement) (phase : c'.phase = .fetch)
      (cycles : op.cycles = c.phase.position + 1) (cycle : c'.cycle = c.cycle + 1) :
    Advances c op (.ok (.retired r)) c'

theorem Consistent.advances (h : c.Consistent) (hf : c.phase ≠ .fetch)
    (ho : Opcode.decode c.latches.instr = .ok op) :
    c.Advances op (c.tick m).result (c.tick m).core := by
  have hp := h.progress m
  generalize hr : (c.tick m).result = r, (c.tick m).core = c' at hp
  cases hp with
  | stalled hs =>
    rcases hs with rfl | ⟨f, rfl⟩
    · exact absurd (fetch_of_halted hr).1 hf
    · exact .failed f
  | running hcycle hposition =>
    refine .running ?_ hposition hcycle
    intro hq
    rw [hq] at hposition
    exact absurd hposition (Nat.succ_ne_zero _).symm
  | @retired _ r hcycle hphase hcycles =>
    cases ho.symm.trans (opcode_of_retired hr)
    exact .retired r hphase hcycles hcycle

end Core

namespace Walk

variable {σ : Type} {c : Core} {op : Opcode} {x : Walk σ} {n : Nat}

/-- Every tick is made in the phase of the path that the ticks gone through before it lead to. -/
def Along (op : Opcode) (visits : List Visit) : Prop :=
  ∀ k v, visits[k]? = some v → passed (visits.take k) ++ [v.phase] <+: op.path

theorem Along.concat {visits : List Visit} {v : Visit} (h : Along op visits)
    (hv : passed visits ++ [v.phase] <+: op.path) : Along op (visits ++ [v]) := by
  intro k u hu
  rcases Nat.lt_trichotomy k visits.length with hk | rfl | hk
  · rw [List.getElem?_append_left hk] at hu
    rw [List.take_append_of_le_length (Nat.le_of_lt hk)]
    exact h k u hu
  · rw [List.getElem?_concat_length] at hu
    cases hu
    rwa [List.take_left]
  · have hlen : (visits ++ [v]).length ≤ k := by
      rw [List.length_append]
      exact hk
    rw [List.getElem?_eq_none hlen] at hu
    cases hu

/-- An instruction of opcode `op`, fetched in `n` ticks from `c` on and not complete. -/
structure Begun (c : Core) (op : Opcode) (n : Nat) (x : Walk σ) : Prop where
  consistent : x.core.Consistent
  opcode : Opcode.decode x.core.latches.instr = .ok op
  phase : x.core.phase ≠ .fetch
  phases : passed x.visits = op.path.take x.core.phase.position
  cycle : x.core.cycle = c.cycle + x.core.phase.position
  inner : ∀ v ∈ x.visits, v.Inner
  along : Along op x.visits
  count : x.visits.length = n

/-- An instruction of opcode `op` that ticks from `c` on have completed. -/
structure Complete (c : Core) (op : Opcode) (x : Walk σ) : Prop where
  phase : x.core.phase = .fetch
  phases : passed x.visits = op.path
  cycle : x.core.cycle = c.cycle + op.cycles
  last : ∃ us p r, x.visits = us ++ [⟨p, .ok (.retired r)⟩] ∧ ∀ u ∈ us, u.Inner
  along : Along op x.visits

namespace Begun

theorem getElem?_path (h : x.Begun c op n) :
    op.path[x.core.phase.position]? = some x.core.phase :=
  Phase.getElem?_path_position (h.consistent.phase_mem_path h.opcode)

theorem position_lt (h : x.Begun c op n) : x.core.phase.position < op.cycles :=
  (List.getElem?_eq_some_iff.mp h.getElem?_path).1

/-- The phase of the next tick is the next one of the path. -/
theorem passed_concat (h : x.Begun c op n) :
    passed x.visits ++ [x.core.phase] = op.path.take (x.core.phase.position + 1) := by
  rw [h.phases, List.take_add_one, h.getElem?_path]
  rfl

theorem inner_concat {v : Visit} (h : x.Begun c op n) (hv : v.Inner) :
    ∀ u ∈ x.visits ++ [v], u.Inner := by
  intro u hu
  rcases List.mem_append.mp hu with hu | hu
  · exact h.inner u hu
  · rwa [List.mem_singleton.mp hu]

variable [Memory σ]

theorem along_tick (h : x.Begun c op n) (edit : σ → σ) : Along op (x.tick edit).visits := by
  refine h.along.concat ?_
  rw [h.passed_concat]
  exact List.take_prefix _ _

theorem count_tick (h : x.Begun c op n) (edit : σ → σ) : (x.tick edit).visits.length = n + 1 := by
  rw [Walk.tick, List.length_append, h.count]
  rfl

theorem tick (h : x.Begun c op n) (edit : σ → σ) :
    (x.tick edit).Begun c op (n + 1) ∨ (x.tick edit).Complete c op := by
  have halong := h.along_tick edit
  have hcount := h.count_tick edit
  have hconsistent := h.consistent.tick (edit x.memory)
  have hadvances := h.consistent.advances (m := edit x.memory) h.phase h.opcode
  have hopcode : Opcode.decode (x.core.tick (edit x.memory)).core.latches.instr = .ok op := by
    rw [Core.instr_tick h.phase]
    exact h.opcode
  unfold Walk.tick at halong hcount ⊢
  dsimp only at halong hcount ⊢
  generalize (x.core.tick (edit x.memory)).result = r, (x.core.tick (edit x.memory)).core = c',
    (x.core.tick (edit x.memory)).memory = m'
    at halong hcount hconsistent hopcode hadvances ⊢
  cases hadvances with
  | failed f =>
    refine .inl ⟨h.consistent, h.opcode, h.phase, ?_, h.cycle, h.inner_concat (.inr ⟨f, rfl⟩), halong,
      hcount⟩
    rw [passed_append, h.phases]
    exact List.append_nil _
  | running hphase hposition hcycle =>
    refine .inl ⟨hconsistent, hopcode, hphase, ?_, ?_, h.inner_concat (.inl rfl), halong,
      hcount⟩
    · rw [passed_append, hposition, ← h.passed_concat]
      rfl
    · rw [hcycle, hposition, h.cycle, Nat.add_assoc]
  | retired r hphase hcycles hcycle =>
    refine .inr ⟨hphase, ?_, ?_, ⟨x.visits, x.core.phase, r, rfl, h.inner⟩, halong⟩
    · rw [passed_append]
      refine h.passed_concat.trans ?_
      rw [← hcycles]
      exact List.take_length
    · rw [hcycle, hcycles, h.cycle, Nat.add_assoc]

theorem follow (h : x.Begun c op n) (edit : σ → σ) :
    (x.follow edit).Begun c op (n + 1) ∨ (x.follow edit).Complete c op := by
  have hnone : ¬ x.visits.any (·.completes) = true := by
    rw [List.any_eq_true]
    rintro ⟨v, hv, hc⟩
    rw [(h.inner v hv).not_completes] at hc
    cases hc
  rw [Walk.follow, if_neg hnone]
  exact h.tick edit

end Begun

theorem Complete.follow_eq [Memory σ] (h : x.Complete c op) (edit : σ → σ) : x.follow edit = x := by
  obtain ⟨us, p, r, hvisits, -⟩ := h.last
  refine if_pos ?_
  rw [hvisits, List.any_append]
  exact Bool.or_true _

end Walk

namespace Core

variable {σ : Type} [Memory σ] {c : Core} {m m' : σ} {w : Instruction} {op : Opcode}

theorem follow_concat (c : Core) (m : σ) (edits : List (σ → σ)) (edit : σ → σ) :
    c.follow m (edits ++ [edit]) = (c.follow m edits).follow edit := by
  simp only [follow, List.foldl_append, List.foldl_cons, List.foldl_nil]

theorem follow_fetch (hphase : c.phase = .fetch)
    (hfetch : Memory.fetch m c.latches.pc = (some w, m')) :
    let x := c.follow m [id]
    x.visits = [⟨.fetch, .ok .running⟩] ∧ x.core.phase = .decode ∧ x.core.latches.instr = w ∧
      x.core.cycle = c.cycle + 1 := by
  have ht := outcome_tick_fetch hphase hfetch
  have hresult : (c.tick m).result = .ok .running := congrArg Prod.fst ht
  have hcore := congrArg (·.2.1) ht
  dsimp only [Tick.outcome] at hcore
  change [Visit.mk c.phase (c.tick m).result] = _ ∧ (c.tick m).core.phase = _ ∧
    (c.tick m).core.latches.instr = w ∧ (c.tick m).core.cycle = _
  rw [hcore, hresult, hphase]
  exact ⟨rfl, rfl, rfl, rfl⟩

theorem follow_cases (hphase : c.phase = .fetch)
    (hfetch : Memory.fetch m c.latches.pc = (some w, m')) (ho : Opcode.decode w = .ok op)
    (edits : List (σ → σ)) :
    (c.follow m (id :: edits)).Begun c op (edits.length + 1) ∨
      (c.follow m (id :: edits)).Complete c op := by
  induction edits using List.reverseRecOn with
  | nil =>
    obtain ⟨hvisits, hdecode, hinstr, hcycle⟩ := follow_fetch hphase hfetch
    refine .inl ⟨fun _ hd => absurd hdecode hd, ?_, ?_, ?_, ?_, ?_, ?_, ?_⟩
    · rw [hinstr]
      exact ho
    · rw [hdecode]
      decide
    · rw [hvisits, hdecode]
      cases op <;> rfl
    · rw [hcycle, hdecode]
      rfl
    · rw [hvisits]
      rintro v (- | ⟨_, ⟨⟩⟩)
      exact .inl rfl
    · rw [hvisits]
      have hnil : Walk.Along op [] := fun k v hv => by simp at hv
      refine hnil.concat ?_
      cases op <;> decide
    · rw [hvisits]
      rfl
  | append_singleton edits edit ih =>
    rw [← List.cons_append, follow_concat]
    rcases ih with h | h
    · rw [List.length_append]
      exact h.follow edit
    · rw [h.follow_eq]
      exact .inr h

/-- A word of no opcode stays in decoding, whatever its memory does. -/
theorem follow_of_no_opcode (hphase : c.phase = .fetch)
    (hfetch : Memory.fetch m c.latches.pc = (some w, m')) (hw : ∀ op : Opcode, op.code ≠ w.opcode)
    (edits : List (σ → σ)) :
    let x := c.follow m (id :: edits)
    x.visits = ⟨.fetch, .ok .running⟩ ::
        List.replicate edits.length ⟨.decode, .error (.unknownOpcode w.opcode w)⟩ ∧
      x.core.phase = .decode ∧ x.core.latches.instr = w := by
  induction edits using List.reverseRecOn with
  | nil =>
    obtain ⟨hvisits, hdecode, hinstr, -⟩ := follow_fetch hphase hfetch
    exact ⟨hvisits, hdecode, hinstr⟩
  | append_singleton edits edit ih =>
    rw [← List.cons_append, follow_concat]
    obtain ⟨hvisits, hdecode, hinstr⟩ := ih
    generalize c.follow m (id :: edits) = x at hvisits hdecode hinstr ⊢
    have hplan : x.core.plan = .error (.unknownOpcode w.opcode w) := by
      apply plan_of_signals_error
      rw [hdecode, hinstr]
      exact Phase.signals_eq_error_iff.mpr (.opcode hw)
    have hnone : ¬ x.visits.any (·.completes) = true := by
      simp [hvisits, Visit.completes]
    rw [Walk.follow, if_neg hnone, Walk.tick, tick_of_plan_error hplan]
    refine ⟨?_, hdecode, hinstr⟩
    rw [hvisits, hdecode, List.length_append, List.length_singleton, List.replicate_succ']
    rfl

end Core

namespace Walk

variable {σ : Type} {c : Core} {op : Opcode} {x : Walk σ} {n : Nat}

/-- What ticks from `c` on have made of an instruction of opcode `op`. -/
structure Follows (c : Core) (op : Opcode) (x : Walk σ) : Prop where
  /-- Up to the first tick that fails, the phases seen are those of the path. -/
  seen : ∀ k v, x.visits[k]? = some v → (∀ u ∈ x.visits.take k, u.result = .ok .running) →
    (x.visits.take (k + 1)).map (·.phase) <+: op.path
  /-- A tick that fails is made again in its phase, and the path is gone on with from there. -/
  along : Along op x.visits
  once : (passed x.visits).Nodup
  cycle : x.core.cycle = c.cycle + (passed x.visits).length
  /-- The instruction is on its path, or has come to the end of it with its last tick. -/
  stage :
    (x.core.phase ≠ .fetch ∧ passed x.visits ++ [x.core.phase] <+: op.path ∧
        ∀ v ∈ x.visits, v.Inner) ∨
      (x.core.phase = .fetch ∧ passed x.visits = op.path ∧
        ∃ us p r, x.visits = us ++ [⟨p, .ok (.retired r)⟩] ∧ ∀ u ∈ us, u.Inner)

theorem Along.seen {visits : List Visit} {k : Nat} {v : Visit} (h : Along op visits)
    (hv : visits[k]? = some v) (hrun : ∀ u ∈ visits.take k, u.result = .ok .running) :
    (visits.take (k + 1)).map (·.phase) <+: op.path := by
  have hpassed : passed (visits.take k) = (visits.take k).map (·.phase) := by
    refine passed_eq_map fun u hu => ?_
    rw [Visit.committed, hrun u hu]
  have hk := h k v hv
  rw [hpassed] at hk
  rw [List.take_add_one, hv, List.map_append]
  exact hk

theorem Begun.follows (h : x.Begun c op n) : x.Follows c op where
  seen _ _ hv hrun := h.along.seen hv hrun
  along := h.along
  once := by
    rw [h.phases]
    exact (List.take_sublist _ _).nodup op.nodup_path
  cycle := by
    have hlt : x.core.phase.position ≤ op.path.length := Nat.le_of_lt h.position_lt
    rw [h.phases, List.length_take_of_le hlt]
    exact h.cycle
  stage := by
    refine .inl ⟨h.phase, ?_, h.inner⟩
    rw [h.passed_concat]
    exact List.take_prefix _ _

theorem Complete.follows (h : x.Complete c op) : x.Follows c op where
  seen _ _ hv hrun := h.along.seen hv hrun
  along := h.along
  once := by
    rw [h.phases]
    exact op.nodup_path
  cycle := by
    rw [h.phases]
    exact h.cycle
  stage := .inr ⟨h.phase, h.phases, h.last⟩

theorem Begun.lt_cycles (h : x.Begun c op n) (hok : ∀ v ∈ x.visits, ∀ f, v.result ≠ .error f) :
    n < op.cycles := by
  have hpassed : passed x.visits = x.visits.map (·.phase) := by
    refine passed_eq_map fun v hv => ?_
    rw [Visit.committed, (h.inner v hv).resolve_right (fun ⟨f, hf⟩ => hok v hv f hf)]
  have hlen := congrArg List.length hpassed
  have hlt := h.position_lt
  rw [h.phases, List.length_take, List.length_map, h.count] at hlen
  omega

theorem Complete.unfailing (h : x.Complete c op) (hok : ∀ v ∈ x.visits, ∀ f, v.result ≠ .error f) :
    x.visits.map (·.phase) = op.path ∧
      ∃ us p r, x.visits = us ++ [⟨p, .ok (.retired r)⟩] ∧ ∀ u ∈ us, u.result = .ok .running := by
  obtain ⟨us, p, r, hvisits, hinner⟩ := h.last
  have hrun : ∀ u ∈ us, u.result = .ok .running := by
    intro u hu
    refine (hinner u hu).resolve_right ?_
    rintro ⟨f, hf⟩
    exact hok u (by simp [hvisits, hu]) f hf
  refine ⟨?_, us, p, r, hvisits, hrun⟩
  rw [← h.phases, passed_eq_map]
  intro v hv
  rw [hvisits, List.mem_append, List.mem_singleton] at hv
  rcases hv with hv | rfl
  · rw [Visit.committed, hrun v hv]
  · rfl

end Walk

namespace Core

variable {σ : Type} [Memory σ] {c : Core} {m m' : σ} {w : Instruction}

/-- An instruction goes through its path phase by phase, and a tick that fails is made again. -/
theorem instruction_follows_path (hphase : c.phase = .fetch)
    (hfetch : Memory.fetch m c.latches.pc = (some w, m')) (edits : List (σ → σ)) :
    let x := c.follow m (id :: edits)
    (∀ op, Opcode.decode w = .ok op → x.Follows c op ∧
      (op.cycles ≤ edits.length + 1 → (∀ v ∈ x.visits, ∀ f, v.result ≠ .error f) →
        x.visits.map (·.phase) = op.path ∧
          (∃ us p r, x.visits = us ++ [⟨p, .ok (.retired r)⟩] ∧
            ∀ u ∈ us, u.result = .ok .running) ∧
          x.core.phase = .fetch ∧ x.core.cycle = c.cycle + op.cycles)) ∧
      ((∀ op : Opcode, op.code ≠ w.opcode) →
        x.visits = ⟨.fetch, .ok .running⟩ ::
            List.replicate edits.length ⟨.decode, .error (.unknownOpcode w.opcode w)⟩ ∧
          x.core.phase = .decode) := by
  intro x
  refine ⟨fun op ho => ?_, fun hw => ?_⟩
  · rcases follow_cases hphase hfetch ho edits with h | h
    · refine ⟨h.follows, fun hcycles hok => ?_⟩
      exact absurd (h.lt_cycles hok) (Nat.not_lt_of_le hcycles)
    · refine ⟨h.follows, fun _ hok => ?_⟩
      obtain ⟨hpath, hlast⟩ := h.unfailing hok
      exact ⟨hpath, hlast, h.phase, h.cycle⟩
  · obtain ⟨hvisits, hdecode, -⟩ := follow_of_no_opcode hphase hfetch hw edits
    exact ⟨hvisits, hdecode⟩

/-- A load whose word is put into the memory after its first two tries, and a word of no opcode. -/
theorem instruction_follows_path_retry :
    let m := Harvard.ofProgram [0x04002503] none
    let edits : List (Harvard → Harvard) := [id, id, id, id, (·.poke 0x40 9), id]
    let x := ({} : Core).follow m (id :: edits)
    let alien := Harvard.ofProgram [0x73] none
    Memory.fetch m 0 = (some 0x04002503, m) ∧ x.visits.map (·.phase) =
        [.fetch, .decode, .memAddress, .memRead, .memRead, .memRead, .memWriteBack] ∧
      passed x.visits = Opcode.load.path ∧ x.core.cycle = 5 ∧ x.core.registers.read 10 = 9 ∧
      (({} : Core).follow alien [id, id, id]).visits =
        [⟨.fetch, .ok .running⟩, ⟨.decode, .error (.unknownOpcode 0x73 0x73)⟩,
          ⟨.decode, .error (.unknownOpcode 0x73 0x73)⟩] := by
  intro m edits x alien
  have hfetch : Memory.fetch m 0 = (some 0x04002503, m) := Harvard.fetch_loadProgram_singleton _ _ _
  have halien : Memory.fetch alien 0 = (some 0x73, alien) := Harvard.fetch_loadProgram_singleton _ _ _
  have ho : Opcode.decode 0x04002503 = .ok .load := Opcode.decode_eq_ok_iff.mpr (by decide)
  have hcodes : ∀ op : Opcode, op.code ≠ Instruction.opcode 0x73 := by
    intro op
    cases op <;> decide
  have hfollows : x.Follows {} .load :=
    ((instruction_follows_path (c := {}) rfl hfetch edits).1 .load ho).1
  have hlost := ((instruction_follows_path (c := {}) rfl halien [id, id]).2 hcodes).1
  have hphases : x.visits.map (·.phase) =
      [.fetch, .decode, .memAddress, .memRead, .memRead, .memRead, .memWriteBack] := by
    subst x edits m
    rfl
  have hphase : x.core.phase = .fetch := by
    subst x edits m
    rfl
  have hpassed : passed x.visits = Opcode.load.path :=
    (hfollows.stage.resolve_left fun h => h.1 hphase).2.1
  have hcycle : x.core.cycle = 5 := by
    rw [hfollows.cycle, hpassed]
    rfl
  have hread : x.core.registers.read 10 = 9 := by
    subst x edits m
    rfl
  exact ⟨hfetch, hphases, hpassed, hcycle, hread, hlost⟩

end Core

end Multicycle
