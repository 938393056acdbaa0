import Emk.SchedTable

/-!
# Saved contexts along runs of one CPU

The process that executes is stored nowhere in the kernel. The machine here
remembers it: it is the one whose registers were last copied into an
interrupt frame through which the CPU returned. A run is lawful when the frame
of a tick is only ever saved for that process.
-/

set_option autoImplicit false

namespace Emk.Sched
open Emk.PageAllocator Emk.Paging Emk.Vmm Emk.Calls Emk.Transition Emk.ReferenceAllocator

structure Machine (σ : Type) where
  kernel : Kernel σ
  onCpu : Option ℕ
  saves : List (ℕ × Option ℕ)
  halted : Bool

/-- `exit` is the system call of the executing process. -/
inductive Act where
  | spawn (user : Bool) (entry pagemap vctx : ℕ)
  | timer (frame : RegisterCtx)
  | exit (dummy : RegisterCtx) (code : ℤ)

/-- Who was saved, and who was on the CPU. -/
def savedOn (onCpu : Option ℕ) : Copy → Option (ℕ × Option ℕ)
  | .save p => some (p, onCpu)
  | .restore _ => none

variable {σ : Type}

def Machine.next (m : Machine σ) (halted : Bool) (k : Kernel σ) (onCpu : Option ℕ) : Machine σ :=
  ⟨k, onCpu, m.saves ++ k.copies.filterMap (savedOn m.onCpu), halted⟩

/-- The CPU returns through the frame of a tick, but the frame that the tick
inside `proc_exit` fills is thrown away. -/
def step (A : Ops σ) (hhdmOffset kernelPagemap kvmCtx cpu : ℕ) (m : Machine σ) (a : Act) :
    Machine σ :=
  if m.halted then m
  else
    let k := { m.kernel with copies := [] }
    match a with
    | .spawn user entry pagemap vctx =>
      let r := schedSpawn A hhdmOffset kernelPagemap kvmCtx cpu user entry pagemap vctx k
      m.next r.1.isNone r.2 m.onCpu
    | .timer frame =>
      let r := schedTick A hhdmOffset kernelPagemap cpu (some frame) k
      m.next r.1.isNone r.2 (lastRestored m.onCpu r.2.copies)
    | .exit dummy code =>
      let r := sysExit A hhdmOffset kernelPagemap cpu dummy code k
      m.next r.1.isNone r.2 m.onCpu

/-- A process exits only when no other live process is in the table. -/
def ExitsAlone (cpu : ℕ) (m : Machine σ) : Act → Prop
  | .exit _ _ => ∀ i < (m.kernel.scheds cpu).count, i ≠ (m.kernel.scheds cpu).currentPid →
      (m.kernel.scheds cpu).procs i = 0 ∨
        (m.kernel.pcbs ((m.kernel.scheds cpu).procs i)).state = .terminated
  | _ => True

instance decidableExitsAlone (cpu : ℕ) (m : Machine σ) (a : Act) : Decidable (ExitsAlone cpu m a) :=
  match a with
  | .exit _ _ => inferInstanceAs (Decidable (∀ i < _, _ → _))
  | .spawn _ _ _ _ => .isTrue trivial
  | .timer _ => .isTrue trivial

/-- The control blocks of the table are live blocks of the heap. -/
def OnHeap (cpu lo hi : ℕ) (k : Kernel σ) : Prop :=
  ∃ live bs, HeapRuns.Inv lo hi ⟨k.heap, live⟩ bs ∧
    ∀ i < (k.scheds cpu).count, (k.scheds cpu).procs i ∈ live

structure Lawful (cpu lo hi : ℕ) (m : Machine σ) : Prop where
  saves : ∀ e ∈ m.saves, e.2 = some e.1
  settled : m.halted = false → Settled cpu m.onCpu m.kernel ∧ OnHeap cpu lo hi m.kernel

variable {A : Ops σ} {hhdmOffset kernelPagemap kvmCtx cpu lo hi : ℕ} {m : Machine σ}
  {k k' : Kernel σ}

theorem Lawful.next (h : Lawful cpu lo hi m) {halted : Bool} {onCpu : Option ℕ}
    (hsave : ∀ p, .save p ∈ k.copies → m.onCpu = some p)
    (hsettled : halted = false → Settled cpu onCpu k ∧ OnHeap cpu lo hi k) :
    Lawful cpu lo hi (m.next halted k onCpu) := by
  refine ⟨fun e he => ?_, hsettled⟩
  rcases List.mem_append.mp he with he | he
  · exact h.saves e he
  · obtain ⟨c, hc, hce⟩ := List.mem_filterMap.mp he
    cases c with
    | save p =>
      rw [← Option.some.inj hce]
      exact hsave p hc
    | restore p => exact absurd hce (by simp [savedOn])

section Spawn
variable {user : Bool} {entry pagemap vctx proc ctx stack : ℕ} {v₁ v₂ : State σ} {onCpu : Option ℕ}

/-- The new process goes behind the last entry and is ready. -/
theorem Spawned.settled (h : Spawned A hhdmOffset kernelPagemap kvmCtx cpu user entry pagemap vctx
      k k' proc ctx stack v₁ v₂) (hs : Settled cpu onCpu k)
    (hnew : ∀ i < (k.scheds cpu).count, (k.scheds cpu).procs i ≠ proc) :
    Settled cpu onCpu k' := by
  have hsched := h.sched
  have hold : ∀ i < (k.scheds cpu).count, Function.update (k.scheds cpu).procs
      (k.scheds cpu).count proc i = (k.scheds cpu).procs i :=
    fun i hi => Function.update_of_ne (by omega) _ _
  have hlast : Function.update (k.scheds cpu).procs (k.scheds cpu).count proc
      (k.scheds cpu).count = proc := Function.update_self _ _ _
  have hkeep : ∀ i < (k.scheds cpu).count,
      k'.pcbs ((k.scheds cpu).procs i) = k.pcbs ((k.scheds cpu).procs i) := by
    intro i hi
    rw [h.pcbs, Function.update_of_ne (hnew i hi)]
  have hpcb : k'.pcbs proc = withStack stack
      (newPcb user entry k.globalPidCounter (procPagemap kernelPagemap pagemap) ctx) := by
    rw [h.pcbs, Function.update_self]
  have hfresh : proc ∉ entries (k.scheds cpu) := by
    intro hin
    obtain ⟨i, hi, he⟩ := mem_entries.mp hin
    exact hnew i hi he
  refine ⟨(h.table hs.table hfresh).1, ?_, ?_⟩ <;> rw [hsched] <;> dsimp only
  · intro i hi
    by_cases hlt : i < (k.scheds cpu).count
    · rw [hold i hlt, hkeep i hlt]
      exact hs.slice i hlt
    · rw [show i = (k.scheds cpu).count by omega, hlast, hpcb]
      rfl
  · intro i hi
    by_cases hlt : i < (k.scheds cpu).count
    · rw [hold i hlt, hkeep i hlt]
      exact hs.state i hlt
    · rw [show i = (k.scheds cpu).count by omega, hlast, hpcb]
      exact .inl rfl

theorem Spawned.onHeap (h : Spawned A hhdmOffset kernelPagemap kvmCtx cpu user entry pagemap vctx
      k k' proc ctx stack v₁ v₂) (ho : OnHeap cpu lo hi k) :
    OnHeap cpu lo hi k' ∧ ∀ i < (k.scheds cpu).count, (k.scheds cpu).procs i ≠ proc := by
  obtain ⟨live, bs, hinv, hin⟩ := ho
  obtain ⟨hfresh, -, -, bs', _, hinv', -⟩ := hinv.kmalloc_fresh h.pcb h.pcb_ne
  refine ⟨⟨proc::live, bs', hinv', fun i hi => ?_⟩, fun i hi he => hfresh (he ▸ hin i hi)⟩
  rw [h.scheds, Function.update_self] at hi ⊢
  dsimp only at hi ⊢
  by_cases hlt : i < (k.scheds cpu).count
  · rw [Function.update_of_ne (by omega)]
    exact List.mem_cons_of_mem _ (hin i hlt)
  · rw [show i = (k.scheds cpu).count by omega, Function.update_self]
    exact List.mem_cons_self

end Spawn

section Steps

theorem OnHeap.congr (ho : OnHeap cpu lo hi k) (hh : k'.heap = k.heap)
    (hp : (k'.scheds cpu).procs = (k.scheds cpu).procs)
    (hc : (k'.scheds cpu).count = (k.scheds cpu).count) : OnHeap cpu lo hi k' := by
  obtain ⟨live, bs, hinv, hin⟩ := ho
  exact ⟨live, bs, hh ▸ hinv, by rw [hp, hc]; exact hin⟩

theorem step_spawn (h : Lawful cpu lo hi m) (hrun : m.halted = false) (user : Bool)
    (entry pagemap vctx : ℕ) :
    Lawful cpu lo hi
      (step A hhdmOffset kernelPagemap kvmCtx cpu m (.spawn user entry pagemap vctx)) := by
  obtain ⟨hs, ho⟩ := h.settled hrun
  rw [step, if_neg (by simp [hrun])]
  have hcopies := schedSpawn_copies A hhdmOffset kernelPagemap kvmCtx cpu user entry pagemap vctx
    { m.kernel with copies := [] }
  refine h.next (fun p hp => ?_) (fun hret => ?_)
  · rw [hcopies] at hp
    exact absurd hp (by simp)
  · rcases hr : schedSpawn A hhdmOffset kernelPagemap kvmCtx cpu user entry pagemap vctx
      { m.kernel with copies := [] } with ⟨_ | pid, k'⟩
    · rw [hr] at hret
      exact absurd hret (by simp)
    · obtain ⟨proc, ctx, stack, v₁, v₂, hspawn⟩ := schedSpawn_returned hr
      obtain ⟨ho', hnew⟩ := hspawn.onHeap (ho.congr rfl rfl rfl)
      exact ⟨hspawn.settled (hs.congr rfl rfl) hnew, ho'⟩

theorem step_timer (h : Lawful cpu lo hi m) (hrun : m.halted = false) (frame : RegisterCtx) :
    Lawful cpu lo hi (step A hhdmOffset kernelPagemap kvmCtx cpu m (.timer frame)) := by
  obtain ⟨hs, ho⟩ := h.settled hrun
  rw [step, if_neg (by simp [hrun])]
  obtain ⟨cs, hcs, hsave, hset, hheap, hprocs, hcount⟩ := schedTick_settled A
    hhdmOffset kernelPagemap (k := { m.kernel with copies := [] }) (hs.congr rfl rfl) frame
  rw [List.nil_append] at hcs
  dsimp only
  rw [hcs]
  refine h.next (fun p hp => hsave p (hcs ▸ hp)) (fun hret =>
    ⟨hset ?_, ho.congr hheap hprocs hcount⟩)
  intro hnone
  rw [hnone] at hret
  exact absurd hret (by simp)

/-- Under the condition there is one process, and it does not come back. -/
theorem step_exit (h : Lawful cpu lo hi m) (hrun : m.halted = false) (dummy : RegisterCtx)
    (code : ℤ) (halone : ExitsAlone cpu m (.exit dummy code)) :
    Lawful cpu lo hi (step A hhdmOffset kernelPagemap kvmCtx cpu m (.exit dummy code)) := by
  obtain ⟨hs, ho⟩ := h.settled hrun
  rw [step, if_neg (by simp [hrun])]
  dsimp only
  rw [sysExit, getSched, observe_bind]
  by_cases hcur : schedGetCurrent (m.kernel.scheds cpu) = 0
  · rw [if_pos hcur]
    exact h.next (fun p hp => absurd hp (by simp [pure_apply]))
      (fun _ => ⟨hs.congr rfl rfl, ho.congr rfl rfl rfl⟩)
  · rw [if_neg hcur, bind_pure_apply]
    have hin : (m.kernel.scheds cpu).currentPid < (m.kernel.scheds cpu).count := by
      by_contra hge
      exact hcur (if_pos (.inr (by omega)))
    have hone : ∀ i < (m.kernel.scheds cpu).count, i = (m.kernel.scheds cpu).currentPid := by
      intro i hi
      by_contra hne
      rcases halone i hi hne with h0 | hterm
      · exact hs.table.filled i hi h0
      · exact hs.live (hs.table.filled i hi) hterm
    have hzero := hone 0 (by omega)
    have hcount : (m.kernel.scheds cpu).count = 1 := by
      by_contra hne
      have := hone 1 (by omega)
      omega
    obtain ⟨hnone, hcopies⟩ := procExit_alone A hhdmOffset
      kernelPagemap (k := { m.kernel with copies := [] }) (hs.congr rfl rfl)
      hcount hzero.symm dummy code
    refine h.next (fun p hp => ?_) (fun hret => ?_)
    · rw [hcopies] at hp
      exact absurd hp (by simp)
    · rw [hnone] at hret
      exact absurd hret (by simp)

theorem step_lawful (h : Lawful cpu lo hi m) {a : Act} (ha : ExitsAlone cpu m a) :
    Lawful cpu lo hi (step A hhdmOffset kernelPagemap kvmCtx cpu m a) := by
  by_cases hrun : m.halted = false
  · cases a with
    | spawn user entry pagemap vctx => exact step_spawn h hrun user entry pagemap vctx
    | timer frame => exact step_timer h hrun frame
    | exit dummy code => exact step_exit h hrun dummy code ha
  · rw [step, if_pos (by simpa using hrun)]
    exact h

theorem Settled.idle {table : ℕ} (hs : k.scheds cpu = ⟨table, fun _ => 0, 0, 0⟩) :
    Settled cpu none k := by
  refine ⟨?_, ?_, ?_⟩ <;> rw [hs]
  · exact table_empty table
  · exact fun i hi => absurd hi (Nat.not_lt_zero i)
  · exact fun i hi => absurd hi (Nat.not_lt_zero i)

theorem schedInit_lawful {live : List ℕ} {bs : List HeapBlocks.Blk}
    (hinv : HeapRuns.Inv lo hi ⟨k.heap, live⟩ bs) (hinit : schedInit cpu k = (some (), k')) :
    Lawful cpu lo hi ⟨k', none, [], false⟩ := by
  obtain ⟨procs, heap, hmalloc, h0, hk'⟩ := schedInit_returned hinit
  obtain ⟨-, -, -, bs', _, hinv', -⟩ := hinv.kmalloc_fresh hmalloc h0
  have hs : k'.scheds cpu = ⟨procs, fun _ => 0, 0, 0⟩ := by
    rw [hk']
    exact Function.update_self _ _ _
  refine ⟨fun e he => absurd he (by simp), fun _ => ⟨Settled.idle hs, procs::live, bs', ?_, ?_⟩⟩
  · rw [hk']
    exact hinv'
  · dsimp only
    rw [hs]
    exact fun i hi => absurd hi (Nat.not_lt_zero i)

end Steps

/-- From `sched_init` on, in every run in which a process exits only when no
other live process is left, every frame that `sched_tick` saves was produced
by the process it is saved for. -/
theorem saved_contexts_belong (boot k : Kernel σ) (live : List ℕ) (bs : List HeapBlocks.Blk)
    (acts : List Act) (hheap : HeapRuns.Inv lo hi ⟨boot.heap, live⟩ bs)
    (hinit : schedInit cpu boot = (some (), k))
    (hacts : Along (step A hhdmOffset kernelPagemap kvmCtx cpu) (ExitsAlone cpu)
      ⟨k, none, [], false⟩ acts) :
    ∀ e ∈ (run (step A hhdmOffset kernelPagemap kvmCtx cpu) ⟨k, none, [], false⟩ acts).saves,
      e.2 = some e.1 := by
  have hrun := run_invariant (I := Lawful cpu lo hi) (fun _ _ h ha => step_lawful h ha)
    (schedInit_lawful hheap hinit) hacts
  exact hrun.saves

/-- A kernel process spawned in the kernel's context. -/
def spawnTest : Act := .spawn false 0x5000 smallLayout.hhdmOffset bootContext.1

theorem saved_contexts_belong_small :
    let m := run (step smallOps smallLayout.hhdmOffset smallLayout.hhdmOffset bootContext.1 0)
      ⟨idleKernel 2, none, [], false⟩ [spawnTest, spawnTest, spawnTest, .timer {},
        .timer { rax := 7 }]
    m.saves = [(8512, some 8512)] ∧ ∀ e ∈ m.saves, e.2 = some e.1 := by
  obtain ⟨bs, hheap⟩ := bootKernel_heap 2 (by decide) (by decide +kernel) (by decide +kernel)
  have hinit := idleKernel_init 2 (by decide +kernel)
  exact ⟨by decide +kernel, saved_contexts_belong (bootKernel 2) (idleKernel 2) [] bs _ hheap hinit
    (by decide +kernel)⟩

/-- The second process exits, the first one becomes current without being
entered, and the next tick saves the frame of the exited one for it. -/
theorem tick_saves_exited_frame :
    (run (step smallOps smallLayout.hhdmOffset smallLayout.hhdmOffset bootContext.1 0)
      ⟨idleKernel 2, none, [], false⟩
      [spawnTest, spawnTest, .timer {}, .exit {} 0, .timer { rax := 7 }]).saves =
        [(8224, some 8512)] := by
  decide +kernel

end Emk.Sched
