import Multicycle.Proofs.Coherence
import Multicycle.Proofs.Record
import Multicycle.Proofs.Script

/-! The calls of a run to its memory: one fetch for each instruction, and the data access that the
instruction asks for, repeated for as long as it is refused. -/
namespace Multicycle

namespace Instruction

/-- The data access of `w` of opcode `op`, with the registers `f`. -/
def dataRequest? (w : Instruction) (op : Opcode) (f : Register.File) : Option Request :=
  match op with
  | .load => some (.load (w.effectiveAddress .load f))
  | .store => some (.store (w.effectiveAddress .store f) (f.read w.rs2))
  | _ => none

theorem dataRequest?_of_access {w : Instruction} {op : Opcode} {f : Register.File}
    (h : op.access = none) : w.dataRequest? op f = none := by
  cases op with
  | load | store => cases h
  | _ => rfl

end Instruction

/-- A memory that keeps refusing `r`. -/
def Refusals (r : Request) (xs : List Exchange) : Prop :=
  ∀ x ∈ xs, x.request = r ∧ ∃ e, x.answer = .error e

theorem Refusals.concat {r : Request} {xs : List Exchange} {e : MemoryFault}
    (h : Refusals r xs) : Refusals r (xs ++ [⟨r, .error e⟩]) := by
  intro x hx
  rcases List.mem_append.mp hx with hx | hx
  · exact h x hx
  · rw [List.mem_singleton.mp hx]
    exact ⟨rfl, e, rfl⟩

/-- The calls of a data access from the first try to the one that succeeds, with the word that a
load gets. -/
inductive Served (v : Word) : Option Request → List Exchange → Prop where
  | none : Served v none []
  | load {a : Word} {xs : List Exchange} (refused : Refusals (.load a) xs) :
    Served v (some (.load a)) (xs ++ [⟨.load a, .ok (.loaded v)⟩])
  | store {a u : Word} {xs : List Exchange} (refused : Refusals (.store a u) xs) :
    Served v (some (.store a u)) (xs ++ [⟨.store a u, .ok .done⟩])

/-- The calls of the instructions `rs` that a run has completed, from `p` and `f` to `q` and `g`. -/
inductive Traffic (p : Word) (f : Register.File) :
    Word → Register.File → List Retirement → List Exchange → Prop where
  | start : Traffic p f p f [] []
  /-- There is no instruction at `q`. -/
  | halted {q : Word} {g : Register.File} {rs : List Retirement} {xs : List Exchange}
      (before : Traffic p f q g rs xs) :
    Traffic p f q g rs (xs ++ [⟨.fetch q, .ok (.fetched none)⟩])
  | instruction {q : Word} {g : Register.File} {rs : List Retirement} {xs ys : List Exchange}
      {w : Instruction} {op : Opcode} {v : Word} {e : Completion} (before : Traffic p f q g rs xs)
      (opcode : Opcode.decode w = .ok op) (supported : w.Supported op)
      (served : Served v (w.dataRequest? op g) ys)
      (effect : (w.execute op q g (⟨w, v⟩ : Script)).1 = .ok e) :
    Traffic p f e.pc e.registers (rs ++ [⟨q, w, op, e.pc, e.taken⟩])
      (xs ++ ⟨.fetch q, .ok (.fetched (some w))⟩ :: ys)

/-- The calls so far of an instruction at `q` that is not complete. One that is rejected makes only
its fetch. -/
inductive CutShort (q : Word) (g : Register.File) : List Exchange → Prop where
  | none : CutShort q g []
  | fetched (w : Instruction) : CutShort q g [⟨.fetch q, .ok (.fetched (some w))⟩]
  | refused {w : Instruction} {op : Opcode} {r : Request} {ys : List Exchange}
      (opcode : Opcode.decode w = .ok op) (request : w.dataRequest? op g = some r)
      (refused : Refusals r ys) : CutShort q g (⟨.fetch q, .ok (.fetched (some w))⟩ :: ys)
  | loaded {w : Instruction} {v : Word} {ys : List Exchange}
      (opcode : Opcode.decode w = .ok .load) (served : Served v (w.dataRequest? .load g) ys) :
    CutShort q g (⟨.fetch q, .ok (.fetched (some w))⟩ :: ys)

def retired? : Except Fault Status → Option Retirement
  | .ok (.retired r) => some r
  | _ => none

theorem retired?_running : retired? (.ok .running) = none := rfl

def retirements (visits : List Visit) : List Retirement :=
  visits.filterMap fun v => retired? v.result

theorem retirements_concat (visits : List Visit) (v : Visit) :
    retirements (visits ++ [v]) = retirements visits ++ (retired? v.result).toList := by
  unfold retirements
  rw [List.filterMap_append]
  cases h : retired? v.result <;> simp [h]

namespace Opcode

theorem ne_of_access {op : Opcode} {p : Phase} (h : op.access = some p) :
    p ≠ .fetch ∧ p ≠ .decode := by
  cases op with
  | load | store =>
    rw [← Option.some.inj h]
    decide
  | _ => cases h

theorem access_eq_none {op : Opcode} {p : Phase} (hp : p ∈ op.path)
    (hc : op.cycles = p.position + 1) (hr : p ≠ .memWriteBack) (hw : p ≠ .memWrite) :
    op.access = none := by
  revert p
  cases op <;> decide

end Opcode

theorem Phase.eq_memRead_of_next {p : Phase} {w : Instruction} (h : p.next w = .ok .memWriteBack) :
    p = .memRead := by
  cases p with
  | memRead => rfl
  | decode =>
    obtain ⟨op, -, hq⟩ := map_eq_ok_iff.mp h
    cases op <;> cases hq
  | memAddress =>
    obtain ⟨op, -, hq⟩ := map_eq_ok_iff.mp h
    split at hq <;> cases hq
  | _ => cases h

namespace Core

variable {σ : Type} [Memory σ] {c c' : Core} {m : σ} {op : Opcode} {xs ys : List Exchange}
  {rs : List Retirement} {p : Word} {f : Register.File}

/-- A data access is asked for as the instruction has it. -/
theorem Underway.request_eq (h : c.Underway) (op : Opcode) (ha : op.access = some c.phase) :
    Opcode.decode c.latches.instr = .ok op ∧
      c.latches.instr.dataRequest? op c.registers = some c.request := by
  obtain ⟨hf, hd⟩ := Opcode.ne_of_access ha
  obtain ⟨op', h⟩ := h.exists_decoded hf hd
  obtain rfl := Opcode.eq_of_access ha (List.mem_of_mem_drop h.phase)
  have hout := h.aluOut_of_access ha
  refine ⟨h.opcode, ?_⟩
  unfold request
  cases op' with
  | load =>
    rw [← Option.some.inj ha, hout]
    rfl
  | store =>
    rw [← Option.some.inj ha, hout, h.b]
    rfl
  | _ => cases ha

theorem request_eq_idle (hf : c.phase ≠ .fetch) (hr : c.phase ≠ .memRead)
    (hw : c.phase ≠ .memWrite) : c.request = .idle := by
  unfold request
  split
  · next h => exact absurd h hf
  · next h => exact absurd h hr
  · next h => exact absurd h hw
  · rfl

/-- The call that has brought the instruction in flight. -/
def fetching (c : Core) : Exchange := ⟨.fetch c.latches.oldPc, .ok (.fetched (some c.latches.instr))⟩

/-- The calls of the instruction in flight so far. -/
def Called (c : Core) (ys : List Exchange) : Prop :=
  match c.phase with
  | .fetch => ys = []
  | .memRead | .memWrite => ∃ zs, ys = c.fetching :: zs ∧ Refusals c.request zs
  | .memWriteBack => ∃ zs, ys = c.fetching :: zs ∧
      Served c.latches.data (c.latches.instr.dataRequest? .load c.registers) zs
  | _ => ys = [c.fetching]

theorem called_of_idle (hf : c.phase ≠ .fetch) (hi : c.request = .idle)
    (hw : c.phase ≠ .memWriteBack) : c.Called ys ↔ ys = [c.fetching] := by
  unfold Called request at *
  cases hp : c.phase with
  | fetch => exact absurd hp hf
  | memWriteBack => exact absurd hp hw
  | memRead | memWrite =>
    rw [hp] at hi
    cases hi
  | _ => exact Iff.rfl

theorem called_fetching (hf : c.phase ≠ .fetch) (hw : c.phase ≠ .memWriteBack) :
    c.Called [c.fetching] := by
  unfold Called
  cases hp : c.phase with
  | fetch => exact absurd hp hf
  | memWriteBack => exact absurd hp hw
  | memRead | memWrite => exact ⟨[], rfl, fun _ hx => by cases hx⟩
  | _ => exact rfl

/-- A completed instruction has made its access, with the last tick or before. -/
theorem Called.served {s : Script} (h : c.Called ys) (hc : c.Underway) (hf : c.phase ≠ .fetch)
    (ho : Opcode.decode c.latches.instr = .ok op) (hcycles : op.cycles = c.phase.position + 1)
    (hdata : c.phase = .memWriteBack → s.data = c.latches.data) :
    ∃ zs, ys ++ c.request.entry (c.request.serve s).1 = c.fetching :: zs ∧
      Served s.data (c.latches.instr.dataRequest? op c.registers) zs := by
  have hmem := hc.consistent.phase_mem_path ho
  by_cases hw : c.phase = .memWrite
  · have hop := Phase.eq_store_of_mem_path hw hmem
    have hreq := (hc.request_eq op (by rw [hw, hop]; rfl)).2
    have hstore : c.request = .store c.latches.aluOut c.latches.b := by rw [request, hw]
    rw [Called, hw] at h
    obtain ⟨zs, rfl, hzs⟩ := h
    refine ⟨_, rfl, ?_⟩
    rw [hreq]
    rw [hstore] at hzs ⊢
    exact .store hzs
  by_cases hl : c.phase = .memWriteBack
  · have hop := Phase.eq_load_of_mem_path (.inr hl) hmem
    have hidle : c.request = .idle := by rw [request, hl]
    rw [Called, hl] at h
    obtain ⟨zs, rfl, hzs⟩ := h
    refine ⟨zs, ?_, ?_⟩
    · rw [hidle, Request.entry, if_pos rfl, List.append_nil]
    · rw [hdata hl, hop]
      exact hzs
  · have haccess := Opcode.access_eq_none hmem hcycles hl hw
    have hr : c.phase ≠ .memRead := by
      intro hr
      rw [Phase.eq_load_of_mem_path (.inl hr) hmem] at haccess
      cases haccess
    have hidle := request_eq_idle hf hr hw
    refine ⟨[], ?_, ?_⟩
    · rw [(called_of_idle hf hidle hl).mp h, hidle, Request.entry, if_pos rfl, List.append_nil]
    · rw [Instruction.dataRequest?_of_access haccess]
      exact .none

/-- The calls on record before those of the instruction in flight are those of the instructions
completed. -/
def OnRecord (c : Core) (p : Word) (f : Register.File) (rs : List Retirement) (xs : List Exchange) :
    Prop :=
  ∃ us ys, Traffic p f c.address c.registers rs us ∧ c.Called ys ∧ xs = us ++ ys

section Commit

variable (hs : ¬ Stalls (c.tick m).result)
include hs

theorem exists_commit : ∃ p r m', c.plan = .ok p ∧ c.request.serve m = (.ok r, m') ∧
    r ≠ .fetched none ∧ (c.tick m).core = c.commit p.next (p.commit r) := by
  cases c.ends m with
  | rejected _ ht | denied _ _ ht =>
    rw [ht] at hs
    exact absurd (.inr ⟨_, rfl⟩) hs
  | ended _ _ ht =>
    rw [ht] at hs
    exact absurd (.inl rfl) hs
  | committed hp hr hne ht => exact ⟨_, _, _, hp, hr, hne, congrArg Tick.core ht⟩

theorem next_tick : c.phase.next c.latches.instr = .ok (c.tick m).core.phase := by
  obtain ⟨p, r, _, hp, -, -, hcore⟩ := exists_commit hs
  obtain ⟨_, _, _, hnext, _⟩ := plan_eq_ok hp
  rw [hcore]
  exact hnext

/-- The calls of such a tick can be read off the latches after it. -/
theorem exchanges_eq_entry :
    c.exchanges m = c.request.entry (c.request.serve (c.tick m).core.script).1 := by
  obtain ⟨p, r, _, hp, hr, hne, hcore⟩ := exists_commit hs
  rw [exchanges_of_plan hp, hcore, serve_script hp hr hne, hr]

theorem data_tick (hr : c.phase ≠ .memRead) : (c.tick m).core.latches.data = c.latches.data := by
  obtain ⟨p, r, _, hp, -, -, hcore⟩ := exists_commit hs
  rw [hcore]
  exact data_commit hp hr r

end Commit

namespace OnRecord

theorem refused {e : MemoryFault} (h : c.OnRecord p f rs xs)
    (hp : c.phase = .memRead ∨ c.phase = .memWrite) :
    c.OnRecord p f rs (xs ++ [⟨c.request, .error e⟩]) := by
  obtain ⟨us, ys, htraffic, hcalled, rfl⟩ := h
  refine ⟨us, ys ++ [⟨c.request, .error e⟩], htraffic, ?_, List.append_assoc ..⟩
  unfold Called at hcalled ⊢
  rcases hp with hp | hp
  all_goals
    rw [hp] at hcalled ⊢
    obtain ⟨zs, rfl, hzs⟩ := hcalled
    exact ⟨_, rfl, hzs.concat⟩

theorem halted (h : c.OnRecord p f rs xs) (hp : c.phase = .fetch) :
    c.OnRecord p f rs (xs ++ [⟨.fetch c.latches.pc, .ok (.fetched none)⟩]) := by
  obtain ⟨us, ys, htraffic, hcalled, rfl⟩ := h
  have hys : ys = [] := by
    rwa [Called, hp] at hcalled
  subst hys
  refine ⟨_, [], htraffic.halted, hcalled, ?_⟩
  rw [List.append_nil, List.append_nil, address, if_pos hp]

theorem stalled (h : c.OnRecord p f rs xs) (hs : Stalls (c.tick m).result) :
    c.OnRecord p f rs (xs ++ c.exchanges m) := by
  cases c.ends m with
  | rejected hp _ =>
    rw [exchanges_of_plan_error hp, List.append_nil]
    exact h
  | denied hp hr _ =>
    have hd := serve_request_eq_error_iff.mp (congrArg Prod.fst hr)
    have hphase : c.phase = .memRead ∨ c.phase = .memWrite := by
      cases hd with
      | load hp _ => exact .inl hp
      | store hp _ => exact .inr hp
    have hne : c.request ≠ .idle := by
      intro hi
      rw [hi] at hr
      cases hr
    rw [exchanges_of_plan hp, hr, Request.entry, if_neg hne]
    exact h.refused hphase
  | ended _ _ ht =>
    have hhalt : (c.tick m).result = .ok .halted := by rw [ht]
    rw [exchanges_of_halted hhalt]
    exact h.halted (fetch_of_halted hhalt).1
  | committed _ _ _ ht =>
    rw [ht] at hs
    exact absurd hs (not_stalls_status _)

theorem started (h : c.OnRecord p f rs xs) (phase : c.phase = .fetch) (next : c'.phase = .decode)
    (oldPc : c'.latches.oldPc = c.latches.pc) (registers : c'.registers = c.registers) :
    c'.OnRecord p f rs
      (xs ++ [⟨.fetch c.latches.pc, .ok (.fetched (some c'.latches.instr))⟩]) := by
  obtain ⟨us, ys, htraffic, hcalled, rfl⟩ := h
  have hys : ys = [] := by
    rwa [Called, phase] at hcalled
  subst hys
  have haddress : c'.address = c.address := by
    rw [address, address, if_pos phase, if_neg (by simp [next]), oldPc]
  refine ⟨us, [c'.fetching], ?_, ?_, ?_⟩
  · rw [haddress, registers]
    exact htraffic
  · rw [Called, next]
  · rw [List.append_nil, fetching, oldPc]

/-- A tick in the midst of an instruction makes its access, or no call. -/
theorem continued (h : c.OnRecord p f rs xs) (hc : c.Underway) (phase : c.phase ≠ .fetch)
    (next : c'.phase ≠ .fetch) (oldPc : c'.latches.oldPc = c.latches.oldPc)
    (instr : c'.latches.instr = c.latches.instr) (registers : c'.registers = c.registers)
    (hnext : c.phase.next c.latches.instr = .ok c'.phase) :
    c'.OnRecord p f rs (xs ++ c.request.entry (c.request.serve c'.script).1) := by
  obtain ⟨us, ys, htraffic, hcalled, rfl⟩ := h
  have haddress : c'.address = c.address := by
    rw [address, address, if_neg phase, if_neg next, oldPc]
  have hfetching : c'.fetching = c.fetching := by
    rw [fetching, fetching, oldPc, instr]
  rw [← haddress, ← registers] at htraffic
  refine ⟨us, _, htraffic, ?_, List.append_assoc ..⟩
  by_cases hr : c.phase = .memRead
  · have hq : c'.phase = .memWriteBack := by
      rw [hr] at hnext
      exact (Except.ok.inj hnext).symm
    have hreq := (hc.request_eq .load (by rw [hr]; rfl)).2
    have hload : c.request = .load c.latches.aluOut := by rw [request, hr]
    rw [Called, hr] at hcalled
    obtain ⟨zs, rfl, hzs⟩ := hcalled
    rw [Called, hq]
    refine ⟨_, by rw [hfetching]; rfl, ?_⟩
    rw [instr, registers, hreq]
    rw [hload] at hzs ⊢
    exact .load hzs
  · have hq : c'.phase ≠ .memWriteBack := by
      intro hq
      rw [hq] at hnext
      exact hr (Phase.eq_memRead_of_next hnext)
    have hlast (hp : c.phase = .memWrite ∨ c.phase = .memWriteBack) : False := by
      rcases hp with hp | hp
      all_goals
        rw [hp] at hnext
        exact next (Except.ok.inj hnext).symm
    have hidle := request_eq_idle phase hr fun hp => hlast (.inl hp)
    have hys := (called_of_idle phase hidle fun hp => hlast (.inr hp)).mp hcalled
    rw [hidle, Request.entry, if_pos rfl, List.append_nil, hys, ← hfetching]
    exact called_fetching next hq

theorem retired {e : Completion} (h : c.OnRecord p f rs xs) (hc : c.Underway)
    (phase : c.phase ≠ .fetch) (opcode : Opcode.decode c.latches.instr = .ok op)
    (supported : c.latches.instr.Supported op)
    (effect : (c.latches.instr.execute op c.latches.oldPc c.registers c'.script).1 = .ok e)
    (next : c'.phase = .fetch) (pc : c'.latches.pc = e.pc) (registers : c'.registers = e.registers)
    (cycles : op.cycles = c.phase.position + 1) (instr : c'.latches.instr = c.latches.instr)
    (data : c.phase = .memWriteBack → c'.latches.data = c.latches.data) :
    c'.OnRecord p f (rs ++ [⟨c.latches.oldPc, c.latches.instr, op, e.pc, e.taken⟩])
      (xs ++ c.request.entry (c.request.serve c'.script).1) := by
  obtain ⟨us, ys, htraffic, hcalled, rfl⟩ := h
  have haddress : c.address = c.latches.oldPc := if_neg phase
  have haddress' : c'.address = e.pc := by rw [address, if_pos next, pc]
  obtain ⟨zs, hzs, hserved⟩ := hcalled.served (s := c'.script) hc phase opcode cycles data
  rw [haddress] at htraffic
  rw [script, instr] at effect
  have hcomplete := htraffic.instruction opcode supported hserved effect
  rw [OnRecord, haddress', registers]
  refine ⟨_, [], hcomplete, ?_, ?_⟩
  · rw [Called, next]
  · rw [List.append_assoc, hzs, List.append_nil]
    rfl

theorem tick (h : c.OnRecord p f rs xs) (hc : c.Underway) (m : σ) :
    (c.tick m).core.OnRecord p f (rs ++ (retired? (c.tick m).result).toList)
      (xs ++ c.exchanges m) := by
  by_cases hs : Stalls (c.tick m).result
  · have hnone : retired? (c.tick m).result = none := by
      rcases hs with hs | ⟨f, hs⟩ <;> rw [hs] <;> rfl
    rw [tick_core_unchanged hs, hnone, Option.toList_none, List.append_nil]
    exact h.stalled hs
  · have hnext := next_tick hs
    have hdata := data_tick hs
    have hprogress := hc.consistent.progress m
    have hstride := hc.stride m
    have hinstr := instr_tick (c := c) (m := m)
    rw [exchanges_eq_entry hs]
    generalize (c.tick m).result = r, (c.tick m).core = c' at *
    generalize hm : c'.script = s at hstride
    cases hstride with
    | stalled hr => exact absurd hr hs
    | started phase _ next oldPc _ registers _ =>
      have hrequest : c.request = .fetch c.latches.pc := by rw [request, phase]
      subst hm
      rw [hrequest, retired?_running, Option.toList_none, List.append_nil]
      exact h.started phase next oldPc registers
    | continued phase next oldPc instr registers _ =>
      subst hm
      rw [retired?_running, Option.toList_none, List.append_nil]
      exact h.continued hc phase next oldPc instr registers hnext
    | @retired op e _ _ phase _ opcode supported effect next pc registers =>
      subst hm
      have hcycles : op.cycles = c.phase.position + 1 := by
        cases hprogress with
        | stalled hr => exact absurd hr hs
        | retired _ _ cycles => exact cycles
      refine h.retired hc phase opcode supported (congrArg Prod.fst effect) next pc registers hcycles
        (hinstr phase) fun hw => hdata ?_
      rw [hw]
      decide

end OnRecord

theorem Called.cutShort (h : c.Called ys) (hc : c.Underway) :
    CutShort c.address c.registers ys := by
  by_cases hf : c.phase = .fetch
  · rw [Called, hf] at h
    rw [h]
    exact .none
  have haddress : c.address = c.latches.oldPc := if_neg hf
  rw [haddress]
  by_cases hw : c.phase = .memWriteBack
  · obtain ⟨op, hd⟩ := hc.exists_decoded hf (by simp [hw])
    have ho := hd.opcode
    rw [Phase.eq_load_of_mem_path (.inr hw) (List.mem_of_mem_drop hd.phase)] at ho
    rw [Called, hw] at h
    obtain ⟨zs, rfl, hzs⟩ := h
    exact .loaded ho hzs
  by_cases hr : c.phase = .memRead
  · obtain ⟨ho, hreq⟩ := hc.request_eq .load (by rw [hr]; rfl)
    rw [Called, hr] at h
    obtain ⟨zs, rfl, hzs⟩ := h
    exact .refused ho hreq hzs
  by_cases hs : c.phase = .memWrite
  · obtain ⟨ho, hreq⟩ := hc.request_eq .store (by rw [hs]; rfl)
    rw [Called, hs] at h
    obtain ⟨zs, rfl, hzs⟩ := h
    exact .refused ho hreq hzs
  · rw [(called_of_idle hf (request_eq_idle hf hr hs) hw).mp h]
    exact .fetched _

/-- What a run has come to, and what is on record of it. -/
structure Tracked (p : Word) (f : Register.File) (y : Walk (Recorded σ)) : Prop where
  underway : y.core.Underway
  record : y.core.OnRecord p f (retirements y.visits) y.memory.exchanges

theorem Tracked.tick {y : Walk (Recorded σ)} (h : Tracked p f y) (edit : σ → σ) :
    Tracked p f (y.tick (Recorded.edit edit)) := by
  have hcore : (y.tick (Recorded.edit edit)).core = (y.core.tick (edit y.memory.memory)).core :=
    congrArg Walk.core (Walk.unrecorded_tick y edit)
  have hvisits : (y.tick (Recorded.edit edit)).visits =
      y.visits ++ [⟨y.core.phase, (y.core.tick (edit y.memory.memory)).result⟩] :=
    congrArg Walk.visits (Walk.unrecorded_tick y edit)
  refine ⟨?_, ?_⟩
  · rw [hcore]
    exact h.underway.tick _
  · rw [hcore, hvisits, Walk.exchanges_tick, retirements_concat]
    exact h.record.tick h.underway _

theorem tracked_recorded (hphase : c.phase = .fetch) (m : σ) (edits : List (σ → σ)) :
    Tracked c.latches.pc c.registers (c.recorded m edits) := by
  induction edits using List.reverseRecOn with
  | nil =>
    have haddress : c.address = c.latches.pc := if_pos hphase
    refine ⟨.fetch hphase, [], [], ?_, ?_, rfl⟩
    · change Traffic _ _ c.address c.registers [] []
      rw [haddress]
      exact .start
    · change c.Called []
      rw [Called, hphase]
  | append_singleton edits edit ih =>
    rw [recorded_concat]
    exact ih.tick edit

/-- The calls of a run are those of its instructions in order: a fetch each, and the data access
until it succeeds. -/
theorem run_traffic {c : Core} (hphase : c.phase = .fetch) (m : σ) (edits : List (σ → σ)) :
    let y := c.recorded m edits
    y.unrecorded = c.walk m edits ∧
      (∃ xs ys, y.memory.exchanges = xs ++ ys ∧
        Traffic c.latches.pc c.registers y.core.address y.core.registers (retirements y.visits) xs ∧
        CutShort y.core.address y.core.registers ys) ∧
      ∀ edit : σ → σ, ∃ news,
        (y.tick (Recorded.edit edit)).memory.exchanges = y.memory.exchanges ++ news ∧
          news.length ≤ 1 ∧
          ((y.core.tick (Recorded.edit edit y.memory)).result = .ok .halted →
            news = [⟨.fetch y.core.latches.pc, .ok (.fetched none)⟩]) ∧
          ∀ f, (∀ e, f ≠ .memory e) →
            (y.core.tick (Recorded.edit edit y.memory)).result = .error f → news = [] := by
  intro y
  obtain ⟨hunderway, xs, ys, htraffic, hcalled, hexchanges⟩ := tracked_recorded hphase m edits
  refine ⟨unrecorded_recorded c m edits, ⟨xs, ys, hexchanges, htraffic, hcalled.cutShort hunderway⟩,
    fun edit => ⟨_, y.exchanges_tick edit, length_exchanges_le _ _, fun hhalt => ?_, ?_⟩⟩
  · rw [tick_recorded] at hhalt
    exact exchanges_of_halted hhalt
  · intro f hf hfault
    exact exchanges_of_plan_error (plan_error_of_tick hf hfault)

/-- A load whose word comes with the second try, a store refused once, and a word of no opcode. -/
theorem run_traffic_retries :
    let m := Harvard.ofProgram [0x04002503, 0x04a02223, 0x73] (some 1)
    let edits : List (Harvard → Harvard) := [id, id, id, id, (·.poke 0x40 9), id, id, id, id, id,
      ({ · with capacity := none }), id, id, id]
    let y := ({} : Core).recorded m edits
    y.memory.exchanges =
        [⟨.fetch 0, .ok (.fetched (some 0x04002503))⟩, ⟨.load 0x40, .error (.unpopulated 0x40)⟩,
          ⟨.load 0x40, .ok (.loaded 9)⟩, ⟨.fetch 4, .ok (.fetched (some 0x04a02223))⟩,
          ⟨.store 0x44 9, .error (.full 0x44 1)⟩, ⟨.store 0x44 9, .ok .done⟩,
          ⟨.fetch 8, .ok (.fetched (some 0x73))⟩] ∧
      ∃ xs ys, y.memory.exchanges = xs ++ ys ∧
        Traffic 0 {} 8 y.core.registers (retirements y.visits) xs ∧
        CutShort 8 y.core.registers ys := by
  intro m edits y
  have hexchanges : y.memory.exchanges =
      [⟨.fetch 0, .ok (.fetched (some 0x04002503))⟩, ⟨.load 0x40, .error (.unpopulated 0x40)⟩,
        ⟨.load 0x40, .ok (.loaded 9)⟩, ⟨.fetch 4, .ok (.fetched (some 0x04a02223))⟩,
        ⟨.store 0x44 9, .error (.full 0x44 1)⟩, ⟨.store 0x44 9, .ok .done⟩,
        ⟨.fetch 8, .ok (.fetched (some 0x73))⟩] := by
    subst y edits m
    rfl
  have haddress : y.core.address = 8 := by
    subst y edits m
    rfl
  have hparts : ∃ xs ys, y.memory.exchanges = xs ++ ys ∧
      Traffic 0 {} y.core.address y.core.registers (retirements y.visits) xs ∧
      CutShort y.core.address y.core.registers ys := (run_traffic (c := {}) rfl m edits).2.1
  rw [haddress] at hparts
  exact ⟨hexchanges, hparts⟩

end Core

end Multicycle
