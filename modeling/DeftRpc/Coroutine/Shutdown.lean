import DeftRpc.Coroutine.EventLoop

/-!
# Behind the loop (Scheduler.cpp:168-189, Poller.cpp:93-102, Task.h:24-32)

With the hook enabled each registered fd but the two of the scheduler is closed, which
cancels its registration, and its callback is called. A coroutine comes back from a call
that fails on the closed fd and runs until it blocks once more or ends.
-/

namespace DeftRpc.Coroutine
open DeftRpc.Foundation

/-- The callback for reading comes first. -/
def RunnableContext.getCallBack (c : RunnableContext) : Runnable :=
  if c.isReading then c.mReadCallback else if c.isWriting then c.mWriteCallback else .monostate

/-- `i` is the index of ForEachRunnableContext, `swapped` are the coroutines swapped in so far. -/
structure Sweep where
  loop : EventLoop
  i : ℕ := 0
  swapped : List ℕ := []

/-- `visit` is a turn of ForEachRunnableContext up to the end of the SwapIn, `act` what the
coroutine does that has been swapped in. -/
inductive SweepAct where
  | visit (mayWork : Bool)
  | act (a : LoopAct)
  deriving DecidableEq

/-- A `visit` is one turn. -/
def SweepAct.turns : SweepAct → ℕ
  | .visit _ => 1
  | .act _ => 0

namespace Sweep

/-- SwapIn of a coroutine whose call fails because its fd is closed. -/
def swapIn (s : Sweep) (c : ℕ) : Sweep :=
  match s.loop.waits c with
  | none => { s with loop := { s.loop with error := some .notWaiting } }
  | some _ => { s with
      loop := { s.loop with running := some c }.setWaits c none, swapped := s.swapped ++ [c] }

/-- The lambda of Start for an fd that is not the scheduler's own. -/
def cleanup (s : Sweep) (runnable : RunnableContext) (mayWork : Bool) : Sweep :=
  let s := { s with loop := s.loop.cancel runnable.mFd mayWork }
  match runnable.getCallBack with
  | .coroutine c => s.swapIn c
  | .task _ => s
  | .monostate => { s with loop := { s.loop with error := some .unregistered } }

section
variable (eventFd timerFd epollFd : ℤ)

def step (s : Sweep) : SweepAct → Option Sweep
  | .visit mayWork =>
    if s.loop.error.isSome ∨ s.loop.running.isSome ∨ s.loop.poller.size ≤ s.i then none
    else
      let runnable := s.loop.poller.context s.i
      let next := { s with i := s.i + 1 }
      if (s.i : ℤ) = epollFd ∨ runnable.mFd = -1 ∨ runnable.mFd = eventFd ∨ runnable.mFd = timerFd then
        some next
      else some (next.cleanup runnable mayWork)
  | .act a =>
    if s.loop.running.isSome then (s.loop.step a).map fun loop => { s with loop := loop } else none

/-- An fd that is registered again lies ahead, and it is not the one of epoll. -/
def StepOk (s : Sweep) : SweepAct → Prop
  | .visit mayWork => mayWork = true
  | .act a => EventLoop.StepOk eventFd timerFd s.loop a ∧
      ∀ fd d mayWork, a = .block fd d mayWork → s.i ≤ fd ∧ fd ≠ epollFd

/-- No coroutine blocks once more. -/
def Quiet (acts : List SweepAct) : Prop := ∀ fd d mayWork, .act (.block fd d mayWork) ∉ acts

def turns (acts : List SweepAct) : ℕ := (acts.map SweepAct.turns).sum

/-- The sweep can go on until the index has passed the table. -/
def Ends (s : Sweep) : Prop :=
  ∃ acts s', Quiet acts ∧ GoodSteps (step eventFd timerFd epollFd) (StepOk eventFd timerFd epollFd) s acts ∧
    interleave (step eventFd timerFd epollFd) s acts = some s' ∧ s'.loop.poller.size ≤ s'.i

end

/-! ### What has been visited -/

/-- `first` is where the sweep began. -/
structure Cleaned (eventFd timerFd epollFd : ℤ) (first : EventLoop) (s : Sweep)
    (slots : ℤ → Option (Direction × TaskOrCoroutine)) : Prop where
  table : EventLoop.Slots eventFd timerFd s.loop slots
  batch : s.loop.active = []
  left : s.loop.left = none
  epoll : slots epollFd = none
  behind : ∀ fd : ℤ, 0 ≤ fd → fd < s.i → slots fd = none ∨ fd = eventFd ∨ fd = timerFd
  known : ∀ c, (first.waits c).isSome = true → c ∈ s.swapped ∨ s.loop.waits c = first.waits c

section Steps
variable {eventFd timerFd epollFd : ℤ} {first : EventLoop} {s s' : Sweep}
  {slots : ℤ → Option (Direction × TaskOrCoroutine)}

theorem request_getCallBack (d : Direction) (fd : ℤ) (t : TaskOrCoroutine) :
    (IoPair.request d fd t).getCallBack = t.runnable := by
  cases d <;> simp [IoPair.request, Poller.wanted, RunnableContext.getCallBack,
    RunnableContext.isReading, RunnableContext.isWriting, epollIn, epollOut]

/-- The turn passes over an entry that needs no cleanup. -/
theorem Cleaned.pass (h : Cleaned eventFd timerFd epollFd first s slots)
    (hslot : slots s.i = none ∨ (s.i : ℤ) = eventFd ∨ (s.i : ℤ) = timerFd) :
    Cleaned eventFd timerFd epollFd first { s with i := s.i + 1 } slots := by
  exact { h with
    behind := by
      intro fd hpos hlt
      rcases lt_or_eq_of_le (Int.lt_add_one_iff.mp (by simpa using hlt)) with hbefore | rfl
      · exact h.behind fd hpos hbefore
      · exact hslot }

/-- What is neither empty nor one of the scheduler's is the place of a coroutine. -/
theorem Cleaned.coroutine (h : Cleaned eventFd timerFd epollFd first s slots) {fd : ℤ}
    (hslot : slots fd ≠ none) (hevent : fd ≠ eventFd) (htimer : fd ≠ timerFd) :
    ∃ d c, slots fd = some (d, .coroutine c) ∧ s.loop.waits c = some (fd, d) := by
  cases hs : slots fd with
  | none => exact absurd hs hslot
  | some entry =>
    obtain ⟨d, t⟩ := entry
    cases t with
    | task n =>
      rcases h.table.tasks fd d n hs with he | he
      · exact absurd he hevent
      · exact absurd he htimer
    | coroutine c =>
      rcases h.table.owned fd d c hs with hw | hl
      · exact ⟨d, c, rfl, hw⟩
      · rw [h.left] at hl
        cases hl

theorem Cleaned.cleanup (h : Cleaned eventFd timerFd epollFd first s slots)
    (hrun : s.loop.running = none) (hslot : slots s.i ≠ none) (hevent : (s.i : ℤ) ≠ eventFd)
    (htimer : (s.i : ℤ) ≠ timerFd) :
    Cleaned eventFd timerFd epollFd first
      (({ s with i := s.i + 1 } : Sweep).cleanup (s.loop.poller.context s.i) true)
      (EventLoop.setSlot slots s.i none) := by
  have hpos : (0 : ℤ) ≤ s.i := Int.natCast_nonneg s.i
  obtain ⟨d, c, hs, hw⟩ := h.coroutine hslot hevent htimer
  have hat := h.table.table s.i hpos
  obtain ⟨q, hq, -⟩ := EventLoop.cancel_at hpos hat
  rw [hs] at hat
  have hfd : (s.loop.poller.context s.i).mFd = s.i := by
    rw [hat.1]
    exact (IoPair.request_event d _ _).2.1
  have hcallback : (s.loop.poller.context s.i).getCallBack = .coroutine c := by
    rw [hat.1, request_getCallBack]
    rfl
  have hnot : ∀ p ∈ s.loop.active, p.fd ≠ s.i := by
    rw [h.batch]
    intro p hp
    cases hp
  have hdone := h.table.completed hrun hw hnot
  have hbefore : (s.loop.cancel s.i true).waits c = some ((s.i : ℤ), d) := by
    rw [(s.loop.cancel_other s.i true).2.1]
    exact hw
  -- closing first and then coming back, or the other way round
  have hsame : { s.loop.cancel s.i true with running := some c }.setWaits c none =
      ({ s.loop with running := some c }.setWaits c none).cancel s.i true := by
    simp only [EventLoop.cancel, EventLoop.setWaits, EventLoop.setPoller, hq, h.left, reduceCtorEq, if_false]
  have hclean : ({ s with i := s.i + 1 } : Sweep).cleanup (s.loop.poller.context s.i) true =
      ⟨({ s.loop with running := some c }.setWaits c none).cancel s.i true, s.i + 1,
        s.swapped ++ [c]⟩ := by
    simp only [Sweep.cleanup, hfd, hcallback, Sweep.swapIn, hbefore, hsame]
  obtain ⟨hactive, hwaits, -⟩ := ({ s.loop with running := some c }.setWaits c none).cancel_other s.i true
  rw [hclean]
  exact {
    table := hdone
    batch := hactive.trans h.batch
    left := by
      simp only [EventLoop.cancel, EventLoop.setWaits, EventLoop.setPoller, hq, h.left, reduceCtorEq, if_false]
    epoll := by
      have he := h.epoll
      grind [EventLoop.setSlot]
    behind := by
      intro fd hfd hlt
      dsimp only at hlt
      by_cases he : fd = s.i
      · exact Or.inl (by rw [he, EventLoop.setSlot, if_pos rfl])
      · rw [EventLoop.setSlot, if_neg he]
        exact h.behind fd hfd (by omega)
    known := by
      intro c' hc'
      dsimp only
      rw [hwaits]
      rcases h.known c' hc' with hin | hstill
      · exact Or.inl (List.mem_append_left _ hin)
      · by_cases he : c' = c
        · exact Or.inl (by rw [he]; exact List.mem_append_right _ (List.mem_singleton_self c))
        · right
          rw [EventLoop.setWaits]
          exact (if_neg he).trans hstill }

theorem Cleaned.visit (h : Cleaned eventFd timerFd epollFd first s slots)
    (hstep : step eventFd timerFd epollFd s (.visit true) = some s') :
    ∃ slots', Cleaned eventFd timerFd epollFd first s' slots' := by
  obtain ⟨hgoes, hstep⟩ := Option.ite_none_left_eq_some.mp hstep
  have hrun : s.loop.running = none := by
    cases hr : s.loop.running with
    | none => rfl
    | some c => exact absurd (Or.inr (Or.inl (by rw [hr]; rfl))) hgoes
  have hat := h.table.table s.i (Int.natCast_nonneg s.i)
  have hempty : slots s.i = none → (s.loop.poller.context s.i).mFd = -1 := by
    intro hnone
    rw [hnone] at hat
    rw [hat.1]
  have hfull : slots s.i ≠ none → (s.loop.poller.context s.i).mFd = s.i := by
    intro hsome
    obtain ⟨entry, he⟩ := Option.ne_none_iff_exists'.mp hsome
    rw [he] at hat
    rw [hat.1]
    exact (IoPair.request_event _ _ _).2.1
  split at hstep
  case isTrue hpass =>
    cases hstep
    refine ⟨slots, h.pass ?_⟩
    by_cases hslot : slots s.i = none
    · exact Or.inl hslot
    · rw [hfull hslot] at hpass
      rcases hpass with he | hneg | hevent | htimer
      · exact Or.inl (by rw [he]; exact h.epoll)
      · omega
      · exact Or.inr (Or.inl hevent)
      · exact Or.inr (Or.inr htimer)
  case isFalse hclean =>
    cases hstep
    simp only [not_or] at hclean
    obtain ⟨-, hneg, hevent, htimer⟩ := hclean
    have hslot : slots s.i ≠ none := fun hnone => hneg (hempty hnone)
    rw [hfull hslot] at hevent htimer
    exact ⟨_, h.cleanup hrun hslot hevent htimer⟩

/-- The coroutine that runs blocks once more. -/
theorem Cleaned.block {c : ℕ} {fd : ℤ} {d : Direction} (h : Cleaned eventFd timerFd epollFd first s slots)
    (hrun : s.loop.running = some c) (hok : EventLoop.StepOk eventFd timerFd s.loop (.block fd d true))
    (hge : (s.i : ℤ) ≤ fd) (hne : fd ≠ epollFd) :
    Cleaned eventFd timerFd epollFd first { s with loop := s.loop.blockOn c fd d true }
      (EventLoop.setSlot slots fd (some (d, .coroutine c))) := by
  have hactive : (s.loop.blockOn c fd d true).active = s.loop.active :=
    (s.loop.blockOn_other (Nat.succ_ne_self c) fd d true).1
  refine {
    table := h.table.block hrun hok
    batch := hactive.trans h.batch
    left := (s.loop.blockOn_left c fd d true).trans h.left
    epoll := ?_
    behind := ?_
    known := ?_ }
  · rw [EventLoop.setSlot, if_neg (Ne.symm hne)]
    exact h.epoll
  · intro fd' hpos hlt
    dsimp only at hlt
    rw [EventLoop.setSlot, if_neg (by omega)]
    exact h.behind fd' hpos hlt
  · intro c' hc'
    rcases h.known c' hc' with hin | hstill
    · exact Or.inl hin
    · right
      have hne' : c' ≠ c := by
        intro he
        rw [← hstill, he, h.table.running c hrun] at hc'
        cases hc'
      exact (s.loop.blockOn_other hne' fd d true).2.trans hstill

theorem Cleaned.close {fd : ℤ} (h : Cleaned eventFd timerFd epollFd first s slots) (hfd : 0 ≤ fd)
    (hfree : EventLoop.Free eventFd timerFd s.loop fd) :
    Cleaned eventFd timerFd epollFd first { s with loop := s.loop.cancel fd true }
      (EventLoop.setSlot slots fd none) := by
  obtain ⟨hactive, hwaits, hleft⟩ := s.loop.cancel_other fd true
  refine {
    table := h.table.cancel hfd hfree
    batch := hactive.trans h.batch
    left := hleft h.left
    epoll := ?_
    behind := ?_
    known := ?_ }
  · have hepoll := h.epoll
    grind [EventLoop.setSlot]
  · have hbehind := h.behind
    intro fd' hpos hlt
    have hfd' := hbehind fd' hpos hlt
    grind [EventLoop.setSlot]
  · intro c' hc'
    dsimp only
    rw [hwaits]
    exact h.known c' hc'

theorem Cleaned.act {a : LoopAct} (h : Cleaned eventFd timerFd epollFd first s slots)
    (hok : StepOk eventFd timerFd epollFd s (.act a))
    (hstep : step eventFd timerFd epollFd s (.act a) = some s') :
    ∃ slots', Cleaned eventFd timerFd epollFd first s' slots' := by
  obtain ⟨hsome, hstep⟩ := Option.ite_none_right_eq_some.mp hstep
  obtain ⟨c, hrun⟩ := Option.isSome_iff_exists.mp hsome
  obtain ⟨loop, hloop, rfl⟩ := Option.map_eq_some_iff.mp hstep
  obtain ⟨hok, hahead⟩ := hok
  have hgoes : ¬ s.loop.error.isSome = true := by
    rw [h.table.error]
    exact Bool.false_ne_true
  unfold EventLoop.step at hloop
  rw [if_neg hgoes] at hloop
  cases a with
  | block fd d mayWork =>
    rw [hrun] at hloop
    cases hloop
    obtain rfl : mayWork = true := hok.1
    obtain ⟨hge, hne⟩ := hahead fd d true rfl
    exact ⟨_, h.block hrun hok hge hne⟩
  | yield =>
    obtain ⟨-, hloop⟩ := Option.ite_none_right_eq_some.mp hloop
    cases hloop
    exact ⟨slots, { h with table := { h.table with
      running := by
        intro c' hc'
        cases hc'
      left := by
        intro fd hl
        rw [show s.loop.left = none from h.left] at hl
        cases hl } }⟩
  | close fd mayWork =>
    cases hloop
    obtain ⟨rfl, hfd, hfree⟩ := hok
    exact ⟨_, h.close hfd hfree⟩
  | swapIn c' =>
    rw [hrun] at hloop
    cases hloop
  | epollWait events =>
    obtain ⟨⟨hidle, -⟩, -⟩ := Option.ite_none_right_eq_some.mp hloop
    rw [hrun] at hidle
    cases hidle
  | dispatch result mayWork =>
    rw [hrun] at hloop
    cases hloop

theorem Cleaned.step {a : SweepAct} (h : Cleaned eventFd timerFd epollFd first s slots)
    (hok : StepOk eventFd timerFd epollFd s a) (hstep : Sweep.step eventFd timerFd epollFd s a = some s') :
    ∃ slots', Cleaned eventFd timerFd epollFd first s' slots' := by
  cases a with
  | visit mayWork =>
    obtain rfl : mayWork = true := hok
    exact h.visit hstep
  | act a => exact h.act hok hstep

/-- Before the first turn. -/
theorem cleaned_start (h : EventLoop.Slots eventFd timerFd first slots) (hepoll : 0 ≤ epollFd)
    (hidle : first.running = none) (hbatch : first.active = [])
    (hfd : first.poller.context epollFd = {}) :
    Cleaned eventFd timerFd epollFd first ⟨first, 0, []⟩ slots := by
  exact {
    table := h
    batch := hbatch
    left := h.left_none hidle
    epoll := EventLoop.slot_of_empty hepoll (h.table epollFd hepoll) hfd
    behind := by
      intro fd hpos hlt
      exact absurd hlt (not_lt.mpr (by simpa using hpos))
    known := fun c _ => Or.inr rfl }

/-- Nothing is left when the index has passed the table. -/
theorem Cleaned.finished (h : Cleaned eventFd timerFd epollFd first s slots)
    (hend : s.loop.poller.size ≤ s.i) {fd : ℤ} (hpos : 0 ≤ fd) (hevent : fd ≠ eventFd)
    (htimer : fd ≠ timerFd) : slots fd = none := by
  by_cases hlt : fd < s.i
  · rcases h.behind fd hpos hlt with hnone | he | he
    · exact hnone
    · exact absurd he hevent
    · exact absurd he htimer
  · have hat := h.table.table fd hpos
    have hout : s.loop.poller.context fd = {} := by
      apply List.getD_eq_default
      have hsize : s.loop.poller.mRunnableContext.length = s.loop.poller.size := rfl
      omega
    exact EventLoop.slot_of_empty hpos hat hout

/-! ### How long it takes -/

theorem cleanup_size (s : Sweep) (runnable : RunnableContext) (mayWork : Bool) :
    (s.cleanup runnable mayWork).i = s.i ∧
      (s.cleanup runnable mayWork).loop.poller.size = s.loop.poller.size := by
  have hsize := s.loop.cancel_size runnable.mFd mayWork
  unfold Sweep.cleanup Sweep.swapIn
  dsimp only
  split
  · split
    · exact ⟨rfl, hsize⟩
    · exact ⟨rfl, hsize⟩
  · exact ⟨rfl, hsize⟩
  · exact ⟨rfl, hsize⟩

theorem visit_turns {mayWork : Bool} (hstep : Sweep.step eventFd timerFd epollFd s (.visit mayWork) = some s') :
    s.i < s.loop.poller.size ∧ s'.i = s.i + 1 ∧ s'.loop.poller.size = s.loop.poller.size := by
  obtain ⟨hgoes, hstep⟩ := Option.ite_none_left_eq_some.mp hstep
  simp only [not_or, not_le] at hgoes
  refine ⟨hgoes.2.2, ?_⟩
  split at hstep
  case isTrue hpass =>
    cases hstep
    exact ⟨rfl, rfl⟩
  case isFalse hclean =>
    cases hstep
    exact cleanup_size { s with i := s.i + 1 } _ mayWork

/-- What a coroutine does changes the table only where it blocks. -/
theorem act_turns {a : LoopAct} (hquiet : ∀ fd d mayWork, a ≠ .block fd d mayWork)
    (hstep : Sweep.step eventFd timerFd epollFd s (.act a) = some s') :
    s'.i = s.i ∧ s'.loop.poller.size = s.loop.poller.size := by
  obtain ⟨hsome, hstep⟩ := Option.ite_none_right_eq_some.mp hstep
  obtain ⟨c, hrun⟩ := Option.isSome_iff_exists.mp hsome
  obtain ⟨loop, hloop, rfl⟩ := Option.map_eq_some_iff.mp hstep
  obtain ⟨-, hloop⟩ := Option.ite_none_left_eq_some.mp hloop
  refine ⟨rfl, ?_⟩
  cases a with
  | block fd d mayWork => exact absurd rfl (hquiet fd d mayWork)
  | yield =>
    obtain ⟨-, hloop⟩ := Option.ite_none_right_eq_some.mp hloop
    cases hloop
    rfl
  | close fd mayWork =>
    cases hloop
    exact s.loop.cancel_size fd mayWork
  | swapIn c' =>
    rw [hrun] at hloop
    cases hloop
  | epollWait events =>
    obtain ⟨⟨hidle, -⟩, -⟩ := Option.ite_none_right_eq_some.mp hloop
    rw [hrun] at hidle
    cases hidle
  | dispatch result mayWork =>
    rw [hrun] at hloop
    cases hloop

theorem Quiet.turns_le {acts : List SweepAct} (hquiet : Quiet acts) (hle : s.i ≤ s.loop.poller.size)
    (hrun : interleave (Sweep.step eventFd timerFd epollFd) s acts = some s') :
    s.i + turns acts ≤ s.loop.poller.size := by
  induction acts generalizing s with
  | nil => exact hle
  | cons a acts ih =>
    obtain ⟨t, hstep, hrest⟩ := interleave_cons hrun
    have htail : Quiet acts := fun fd d mayWork hmem => hquiet fd d mayWork (List.mem_cons_of_mem a hmem)
    have hcons : turns (a :: acts) = a.turns + turns acts := List.sum_cons
    cases a with
    | visit mayWork =>
      obtain ⟨hlt, hi, hsize⟩ := visit_turns hstep
      have hrec := ih htail (by omega) hrest
      rw [hcons, SweepAct.turns]
      omega
    | act a =>
      obtain ⟨hi, hsize⟩ := act_turns (fun fd d mayWork he => hquiet fd d mayWork (by
        rw [he]
        exact List.mem_cons_self)) hstep
      have hrec := ih htail (by omega) hrest
      rw [hcons, SweepAct.turns]
      omega

theorem Ends.cons {a : SweepAct} (hends : Ends eventFd timerFd epollFd s')
    (hquiet : ∀ fd d mayWork, a ≠ .act (.block fd d mayWork)) (hok : StepOk eventFd timerFd epollFd s a)
    (hstep : Sweep.step eventFd timerFd epollFd s a = some s') : Ends eventFd timerFd epollFd s := by
  obtain ⟨acts, last, hacts, hgood, hrun, hend⟩ := hends
  refine ⟨a :: acts, last, ?_, goodSteps_cons hok hstep hgood, ?_, hend⟩
  · intro fd d mayWork hmem
    rcases List.mem_cons.mp hmem with he | hmem
    · exact hquiet fd d mayWork he.symm
    · exact hacts fd d mayWork hmem
  · simp only [interleave, hstep, Option.bind_some, hrun]

/-- The coroutine that has been swapped in can yield. -/
theorem Cleaned.yield {c : ℕ} (h : Cleaned eventFd timerFd epollFd first s slots)
    (hrun : s.loop.running = some c) : StepOk eventFd timerFd epollFd s (.act .yield) ∧
      Sweep.step eventFd timerFd epollFd s (.act .yield) =
        some { s with loop := { s.loop with running := none } } := by
  constructor
  · refine ⟨h.left, ?_⟩
    intro fd d mayWork he
    cases he
  · simp [Sweep.step, EventLoop.step, hrun, h.table.error]

theorem Cleaned.ends_idle (h : Cleaned eventFd timerFd epollFd first s slots)
    (hidle : s.loop.running = none) : Ends eventFd timerFd epollFd s := by
  obtain ⟨n, hn⟩ : ∃ n, n = s.loop.poller.size - s.i := ⟨_, rfl⟩
  induction n generalizing s slots with
  | zero =>
    refine ⟨[], s, ?_, trivial, rfl, by omega⟩
    intro fd d mayWork hmem
    cases hmem
  | succ n ih =>
    obtain ⟨s1, hs1⟩ : ∃ s1, Sweep.step eventFd timerFd epollFd s (.visit true) = some s1 := by
      have hgoes : ¬ (s.loop.error.isSome ∨ s.loop.running.isSome ∨ s.loop.poller.size ≤ s.i) := by
        rw [h.table.error, hidle]
        simp only [Option.isSome_none, Bool.false_eq_true, false_or]
        omega
      by_cases hpass : (s.i : ℤ) = epollFd ∨ (s.loop.poller.context s.i).mFd = -1 ∨
          (s.loop.poller.context s.i).mFd = eventFd ∨ (s.loop.poller.context s.i).mFd = timerFd
      · exact ⟨_, (if_neg hgoes).trans (if_pos hpass)⟩
      · exact ⟨_, (if_neg hgoes).trans (if_neg hpass)⟩
    obtain ⟨-, hi, hsize⟩ := visit_turns hs1
    obtain ⟨slots1, h1⟩ := h.visit hs1
    have hrest : Ends eventFd timerFd epollFd s1 := by
      cases hrun : s1.loop.running with
      | none => exact ih h1 hrun (by omega)
      | some c =>
        obtain ⟨hok, hyield⟩ := h1.yield hrun
        obtain ⟨slots2, h2⟩ := h1.act hok hyield
        have hsize2 : n = s1.loop.poller.size - s1.i := by omega
        exact (ih h2 rfl hsize2).cons (fun _ _ _ he => by cases he) hok hyield
    exact hrest.cons (a := .visit true) (fun _ _ _ he => by cases he) rfl hs1

theorem Cleaned.ends (h : Cleaned eventFd timerFd epollFd first s slots) :
    Ends eventFd timerFd epollFd s := by
  cases hrun : s.loop.running with
  | none => exact h.ends_idle hrun
  | some c =>
    obtain ⟨hok, hyield⟩ := h.yield hrun
    obtain ⟨slots', h'⟩ := h.act hok hyield
    exact (h'.ends_idle rfl).cons (fun _ _ _ he => by cases he) hok hyield

/-- Nobody waits when the index has passed the table. -/
theorem Cleaned.nobody (h : Cleaned eventFd timerFd epollFd first s slots)
    (hend : s.loop.poller.size ≤ s.i) (c : ℕ) : s.loop.waits c = none := by
  cases hw : s.loop.waits c with
  | none => rfl
  | some place =>
    obtain ⟨fd, d⟩ := place
    obtain ⟨hpos, hslot⟩ := h.table.waits c fd d hw
    have hevent : fd ≠ eventFd := by
      rintro rfl
      rw [h.table.event] at hslot
      simp at hslot
    have htimer : fd ≠ timerFd := by
      rintro rfl
      rw [h.table.timer] at hslot
      simp at hslot
    rw [h.finished hend hpos hevent htimer] at hslot
    cases hslot

/-- **The sweep.** -/
theorem sweep_wakes_all (hevent : 0 ≤ eventFd) (htimer : 0 ≤ timerFd) (hne : eventFd ≠ timerFd)
    (hepoll : 0 ≤ epollFd) {as : List LoopAct} {acts : List SweepAct}
    (hok : GoodSteps EventLoop.step (EventLoop.StepOk eventFd timerFd) (.start eventFd timerFd) as)
    (hrun : interleave EventLoop.step (.start eventFd timerFd) as = some first)
    (hidle : first.running = none) (hbatch : first.active = []) (hfd : first.poller.context epollFd = {})
    (hsweep : GoodSteps (step eventFd timerFd epollFd) (StepOk eventFd timerFd epollFd) ⟨first, 0, []⟩ acts)
    (hrest : interleave (step eventFd timerFd epollFd) ⟨first, 0, []⟩ acts = some s) :
    s.loop.error = none ∧
      (s.loop.poller.size ≤ s.i → (∀ c, s.loop.waits c = none) ∧
        (∀ c, (first.waits c).isSome = true → c ∈ s.swapped) ∧
        ∀ fd, 0 ≤ fd → fd ≠ eventFd → fd ≠ timerFd →
          s.loop.poller.context fd = {} ∧ s.loop.poller.interest fd = none) ∧
      (Quiet acts → turns acts ≤ first.poller.size) ∧ Ends eventFd timerFd epollFd s := by
  obtain ⟨slots0, h0⟩ := EventLoop.slots_start hevent htimer hne
  obtain ⟨slots1, h1⟩ := h0.run hok hrun
  have hkeep : ∀ s a s', (∃ slots, Cleaned eventFd timerFd epollFd first s slots) →
      StepOk eventFd timerFd epollFd s a → step eventFd timerFd epollFd s a = some s' →
      ∃ slots, Cleaned eventFd timerFd epollFd first s' slots := by
    intro s a s' hs ha hstep
    obtain ⟨slots, hs⟩ := hs
    exact hs.step ha hstep
  obtain ⟨slots, h⟩ := goodSteps_invariant hkeep acts _ s
    ⟨slots1, cleaned_start h1 hepoll hidle hbatch hfd⟩ hsweep hrest
  refine ⟨h.table.error, ?_, ?_, h.ends⟩
  · intro hend
    refine ⟨h.nobody hend, ?_, ?_⟩
    · intro c hc
      rcases h.known c hc with hin | hstill
      · exact hin
      · rw [← hstill, h.nobody hend] at hc
        cases hc
    · intro fd hpos he ht
      have hat := h.table.table fd hpos
      rw [h.finished hend hpos he ht] at hat
      exact hat
  · intro hquiet
    have hle := hquiet.turns_le (Nat.zero_le _) hrest
    rwa [Nat.zero_add] at hle

/-- Coroutine 7 waits for fd 5 when the loop ends. -/
theorem sweep_wakes_all_one : ∃ first acts s, interleave EventLoop.step (.start 4 3)
      [.swapIn 7, .block 5 .read true] = some first ∧ first.waits 7 = some (5, .read) ∧
    interleave (step 4 3 2) ⟨first, 0, []⟩ acts = some s ∧ Quiet acts ∧ s.loop.poller.size ≤ s.i ∧
    s.loop.error = none ∧
      (s.loop.poller.size ≤ s.i → (∀ c, s.loop.waits c = none) ∧
        (∀ c, (first.waits c).isSome = true → c ∈ s.swapped) ∧
        ∀ fd, 0 ≤ fd → fd ≠ 4 → fd ≠ 3 →
          s.loop.poller.context fd = {} ∧ s.loop.poller.interest fd = none) ∧
      (Quiet acts → turns acts ≤ first.poller.size) ∧ Ends 4 3 2 s := by
  have hfree : EventLoop.Free 4 3 { EventLoop.start 4 3 with running := some 7 } 5 := by
    refine ⟨by decide, by decide, ?_⟩
    intro c d h
    cases h
  have hok : GoodSteps EventLoop.step (EventLoop.StepOk 4 3) (.start 4 3)
      [.swapIn 7, .block 5 .read true] :=
    goodSteps_cons rfl rfl (goodSteps_one ⟨rfl, by decide, hfree, rfl, Or.inl rfl⟩)
  have hrun : (interleave EventLoop.step (.start 4 3) [.swapIn 7, .block 5 .read true]).map (fun first =>
      (first.waits 7, first.running, first.active.isEmpty, first.poller.context 2)) =
      some (some (5, .read), none, true, {}) := by
    decide +kernel
  obtain ⟨first, hfirst, he⟩ := Option.map_eq_some_iff.mp hrun
  simp only [Prod.mk.injEq, List.isEmpty_iff] at he
  obtain ⟨hw, hidle, hbatch, hfd⟩ := he
  obtain ⟨slots0, h0⟩ :=
    EventLoop.slots_start (show (0 : ℤ) ≤ 4 by decide) (show (0 : ℤ) ≤ 3 by decide) (by decide)
  obtain ⟨slots1, h1⟩ := h0.run hok hfirst
  obtain ⟨acts, s, hquiet, hsweep, hs, hend⟩ :=
    (cleaned_start h1 (show (0 : ℤ) ≤ 2 by decide) hidle hbatch hfd).ends
  exact ⟨first, acts, s, hfirst, hw, hs, hquiet, hend, sweep_wakes_all (by decide) (by decide) (by decide)
    (by decide) hok hfirst hidle hbatch hfd hsweep hs⟩

end Steps

end Sweep

end DeftRpc.Coroutine
