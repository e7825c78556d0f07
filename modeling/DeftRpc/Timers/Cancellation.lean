import DeftRpc.Timers.TimerIds

/-!
# A cancelled timer does not start again

A run is looked at through the ids that AddTimer returns, the calls of CancelTimer that
return, and the tasks that start. In an event CancelTimer only takes a note, and the batch
of expired timers is fixed before the first task runs.
-/

namespace DeftRpc.Timers
open DeftRpc.Foundation

inductive Happening where
  | added (id : ℤ)
  | cancelled (id : ℤ)
  | started (id : ℤ)
  deriving DecidableEq

/-- No timer whose id was in `ids`, or was added since, starts after it was cancelled. -/
def NeverRestarted : List ℤ → List Happening → Prop
  | _, [] => True
  | ids, .added id :: l => NeverRestarted (id :: ids) l
  | ids, .cancelled id :: l => (id ∈ ids → .started id ∉ l) ∧ NeverRestarted ids l
  | ids, .started _ :: l => NeverRestarted ids l

def issuedIds : List ℤ → List Happening → List ℤ
  | ids, [] => ids
  | ids, .added id :: l => issuedIds (id :: ids) l
  | ids, .cancelled _ :: l => issuedIds ids l
  | ids, .started _ :: l => issuedIds ids l

def buriedIds : List ℤ → List Happening → List ℤ
  | _, [] => []
  | ids, .added id :: l => buriedIds (id :: ids) l
  | ids, .cancelled id :: l => if id ∈ ids then id :: buriedIds ids l else buriedIds ids l
  | ids, .started _ :: l => buriedIds ids l

theorem issuedIds_append (ids : List ℤ) (l l' : List Happening) :
    issuedIds ids (l ++ l') = issuedIds (issuedIds ids l) l' := by
  induction l generalizing ids with
  | nil => rfl
  | cons h l ih => cases h <;> exact ih _

theorem buriedIds_append (ids : List ℤ) (l l' : List Happening) :
    buriedIds ids (l ++ l') = buriedIds ids l ++ buriedIds (issuedIds ids l) l' := by
  induction l generalizing ids with
  | nil => rfl
  | cons h l ih =>
    cases h with
    | added id => exact ih _
    | started id => exact ih _
    | cancelled id =>
      rw [List.cons_append, buriedIds, buriedIds, issuedIds, ih]
      split
      · rfl
      · rfl

theorem neverRestarted_append (ids : List ℤ) (l l' : List Happening) :
    NeverRestarted ids (l ++ l') ↔ NeverRestarted ids l ∧ NeverRestarted (issuedIds ids l) l' ∧
      ∀ id ∈ buriedIds ids l, .started id ∉ l' := by
  induction l generalizing ids with
  | nil => exact ⟨fun h => ⟨trivial, h, fun _ hid => absurd hid List.not_mem_nil⟩, fun h => h.2.1⟩
  | cons h l ih =>
    cases h with
    | added id => exact ih _
    | started id => exact ih _
    | cancelled id =>
      rw [List.cons_append, NeverRestarted, NeverRestarted, issuedIds, buriedIds, ih, List.mem_append]
      by_cases hid : id ∈ ids
      · rw [if_pos hid]
        constructor
        · rintro ⟨hnot, hl, hl', hcross⟩
          have hnot := not_or.mp (hnot hid)
          refine ⟨⟨fun _ => hnot.1, hl⟩, hl', fun y hy => ?_⟩
          rcases List.mem_cons.mp hy with rfl | hy
          · exact hnot.2
          · exact hcross y hy
        · rintro ⟨⟨hnot, hl⟩, hl', hcross⟩
          refine ⟨fun _ => not_or.mpr ⟨hnot hid, hcross id List.mem_cons_self⟩, hl, hl', fun y hy => ?_⟩
          exact hcross y (List.mem_cons_of_mem id hy)
      · rw [if_neg hid]
        constructor
        · rintro ⟨-, hl, hl', hcross⟩
          exact ⟨⟨fun hin => absurd hin hid, hl⟩, hl', hcross⟩
        · rintro ⟨⟨-, hl⟩, hl', hcross⟩
          exact ⟨fun hin => absurd hin hid, hl, hl', hcross⟩

theorem neverRestarted_of_not_started {l : List Happening} (h : ∀ id, .started id ∉ l) (ids : List ℤ) :
    NeverRestarted ids l := by
  induction l generalizing ids with
  | nil => trivial
  | cons x l ih =>
    have htail : ∀ id, Happening.started id ∉ l := fun id hin => h id (List.mem_cons_of_mem x hin)
    cases x with
    | added id => exact ih htail _
    | started id => exact absurd List.mem_cons_self (h id)
    | cancelled id => exact ⟨fun _ => htail id, ih htail ids⟩

namespace TimerQueue

/-! ### What a call shows -/

def actHappenings (q : TimerQueue) : Action → List Happening
  | .add interval repeated created armed =>
    match q.addTimer interval repeated created armed with
    | .ok r => [.added r.1]
    | .error _ => []
  | .cancel id armed =>
    match q.cancelTimer id armed with
    | .ok _ => [.cancelled id]
    | .error _ => []

def actsHappenings : TimerQueue → List Action → List Happening
  | _, [] => []
  | q, a :: as => q.actHappenings a ++ match q.act a with
    | .ok q' => q'.actsHappenings as
    | .error _ => []

/-- The loop that runs the tasks. -/
def tasksHappenings (task : ℤ → List Action) : List ℤ → TimerQueue → List Happening
  | [], _ => []
  | p :: ps, q => .started p :: (q.actsHappenings (task p) ++ match q.acts (task p) with
    | .ok q' => tasksHappenings task ps (q'.eraseActive p)
    | .error _ => [])

def happenings (q : TimerQueue) : Call → List Happening
  | .act a => q.actHappenings a
  | .handle e => tasksHappenings e.task (q.beginHandling e.now).expired (q.beginHandling e.now)

variable (order : List ℤ → List ℤ)

def tracedCall (q : TimerQueue) (c : Call) : Exec (List Happening × TimerQueue) := do
  let r ← q.call order c
  pure (q.happenings c, r.2)

/-- No task cancels an expired timer that expires after its own timer. -/
def NoVictim (q : TimerQueue) : Call → Prop
  | .act _ => True
  | .handle e => ∀ p ∈ q.mActiveTimers, ∀ p' ∈ q.mActiveTimers, q.expire p < q.expire p' →
      q.expire p' ≤ e.now → p' ∉ cancelledIds (e.task p)

instance (q : TimerQueue) : ∀ c, Decidable (q.NoVictim c)
  | .act _ => .isTrue trivial
  | .handle e => inferInstanceAs (Decidable (∀ p ∈ q.mActiveTimers, ∀ p' ∈ q.mActiveTimers,
      q.expire p < q.expire p' → q.expire p' ≤ e.now → p' ∉ cancelledIds (e.task p)))

/-! ### The calls of the tasks -/

/-- `ids` are the ids that AddTimer has returned. -/
def Issued (ids : List ℤ) (q : TimerQueue) : Prop := ∀ id, id ∈ ids ↔ 0 < id ∧ id < q.id

/-- `l` is what the calls `as` of a task show. -/
structure Shows (ids : List ℤ) (as : List Action) (l : List Happening) (q' : TimerQueue) : Prop where
  issued : Issued (issuedIds ids l) q'
  buried : ∀ id ∈ buriedIds ids l, id ∈ cancelledIds as
  cancelled : ∀ id ∈ ids, id ∈ cancelledIds as → id ∈ buriedIds ids l

theorem mem_issuedIds {ids : List ℤ} {id : ℤ} (h : id ∈ ids) (l : List Happening) :
    id ∈ issuedIds ids l := by
  induction l generalizing ids with
  | nil => exact h
  | cons x l ih =>
    cases x with
    | added y => exact ih (List.mem_cons_of_mem y h)
    | started y => exact ih h
    | cancelled y => exact ih h

theorem mem_issuedIds_of_buried {ids : List ℤ} {id : ℤ} {l : List Happening} (h : id ∈ buriedIds ids l) :
    id ∈ issuedIds ids l := by
  induction l generalizing ids with
  | nil => exact absurd h List.not_mem_nil
  | cons x l ih =>
    cases x with
    | added y => exact ih h
    | started y => exact ih h
    | cancelled y =>
      rw [buriedIds] at h
      split at h
      · next hy =>
        rcases List.mem_cons.mp h with rfl | h
        · exact mem_issuedIds hy l
        · exact ih h
      · exact ih h

theorem Shows.append {ids : List ℤ} {as bs : List Action} {l l' : List Happening} {q1 q2 : TimerQueue}
    (h1 : Shows ids as l q1) (h2 : Shows (issuedIds ids l) bs l' q2) :
    Shows ids (as ++ bs) (l ++ l') q2 := by
  refine ⟨?_, ?_, ?_⟩
  · rw [issuedIds_append]
    exact h2.issued
  · intro id hid
    rw [buriedIds_append, List.mem_append] at hid
    rw [cancelledIds_append, List.mem_append]
    exact hid.imp (h1.buried id) (h2.buried id)
  · intro id hid hc
    rw [cancelledIds_append, List.mem_append] at hc
    rw [buriedIds_append, List.mem_append]
    exact hc.imp (h1.cancelled id hid) (h2.cancelled id (mem_issuedIds hid l))

theorem Inv.act_shows {q q' : TimerQueue} (h : Inv q) (hh : q.mHandlingEvent = true) {ids : List ℤ}
    (hids : Issued ids q) {a : Action} (ha : q.act a = .ok q') :
    Shows ids [a] (q.actHappenings a) q' ∧ ∀ id, .started id ∉ q.actHappenings a := by
  have hnext := (h.act_ids hh ha).next
  cases a with
  | add interval repeated created armed =>
    obtain ⟨q1, hadd, -, -⟩ := h.addTimer interval repeated created armed
    have hpos := h.next
    rw [actHappenings, hadd]
    dsimp only [addedTimers, List.length_cons, List.length_nil] at hnext
    refine ⟨⟨fun id => ?_, fun id hid => absurd hid List.not_mem_nil, fun id _ hc => hc⟩, by simp⟩
    rw [issuedIds, issuedIds, List.mem_cons, hids id]
    omega
  | cancel c armed =>
    rw [actHappenings, cancelTimer_handling hh]
    dsimp only [addedTimers, List.length_nil] at hnext
    refine ⟨⟨fun id => ?_, fun id hid => ?_, fun id hid hc => ?_⟩, by simp⟩
    · rw [issuedIds, issuedIds, hids id]
      omega
    · rw [buriedIds, buriedIds] at hid
      split at hid
      · exact hid
      · exact absurd hid List.not_mem_nil
    · obtain rfl := List.mem_singleton.mp hc
      rw [buriedIds, if_pos hid]
      exact List.mem_cons_self

theorem shows_nil {ids : List ℤ} {q : TimerQueue} (hids : Issued ids q) : Shows ids [] [] q :=
  ⟨hids, fun _ hid => absurd hid List.not_mem_nil, fun _ _ hc => absurd hc List.not_mem_nil⟩

theorem Inv.acts_shows {q q' : TimerQueue} (h : Inv q) (hh : q.mHandlingEvent = true) {ids : List ℤ}
    (hids : Issued ids q) {as : List Action} (has : q.acts as = .ok q') :
    Shows ids as (q.actsHappenings as) q' ∧ ∀ id, .started id ∉ q.actsHappenings as := by
  induction as generalizing q ids with
  | nil =>
    cases has
    exact ⟨shows_nil hids, fun id hin => absurd hin List.not_mem_nil⟩
  | cons a as ih =>
    obtain ⟨q1, ha, h1, he⟩ := h.act_handling hh a
    rw [acts, ha, Exec.ok_bind] at has
    rw [actsHappenings, ha]
    obtain ⟨hshows, hnot⟩ := h.act_shows hh hids ha
    obtain ⟨hshows1, hnot1⟩ := ih h1 (he.handling.trans hh) hshows.issued has
    refine ⟨hshows.append hshows1, fun id hin => ?_⟩
    exact (List.mem_append.mp hin).elim (hnot id) (hnot1 id)

/-- The loop that runs the tasks starts the timers `ps`, and one of them after its
cancellation exactly when an earlier one cancels it. -/
theorem Inv.runTasks_shows {q q' : TimerQueue} (h : Inv q) (hh : q.mHandlingEvent = true) {ids : List ℤ}
    (hids : Issued ids q) {task : ℤ → List Action} {ps : List ℤ} (hps : ∀ p ∈ ps, p ∈ ids)
    (hrun : TimerQueue.runTasks task ps q = .ok q') :
    Shows ids (ps.flatMap task) (tasksHappenings task ps q) q' ∧
      (∀ id, .started id ∈ tasksHappenings task ps q ↔ id ∈ ps) ∧
      (NeverRestarted ids (tasksHappenings task ps q) ↔
        ps.Pairwise fun p p' => p' ∉ cancelledIds (task p)) := by
  induction ps generalizing q ids with
  | nil =>
    cases hrun
    exact ⟨shows_nil hids, fun id => by simp [tasksHappenings], by simp [tasksHappenings, NeverRestarted]⟩
  | cons p ps ih =>
    obtain ⟨q1, hacts, h1, he, hrest⟩ := h.runTasks_turn hh hrun
    obtain ⟨hshows, hnot⟩ := h.acts_shows hh hids hacts
    obtain ⟨hlater, hstarted, hiff⟩ := ih (h1.eraseActive p) (he.handling.trans hh) hshows.issued
      (fun y hy => mem_issuedIds (hps y (List.mem_cons_of_mem p hy)) _) hrest
    have htrace : tasksHappenings task (p :: ps) q = .started p ::
        (q.actsHappenings (task p) ++ tasksHappenings task ps (q1.eraseActive p)) := by
      rw [tasksHappenings, hacts]
    have hboth := hshows.append hlater
    rw [htrace]
    refine ⟨⟨hboth.issued, hboth.buried, hboth.cancelled⟩, fun id => ?_, ?_⟩
    · rw [List.mem_cons, List.mem_append, List.mem_cons, hstarted]
      constructor
      · rintro (heq | hin | hin)
        · cases heq
          exact Or.inl rfl
        · exact absurd hin (hnot id)
        · exact Or.inr hin
      · rintro (rfl | hin)
        · exact Or.inl rfl
        · exact Or.inr (Or.inr hin)
    · rw [NeverRestarted, neverRestarted_append, hiff, List.pairwise_cons]
      constructor
      · rintro ⟨-, hpairs, hcross⟩
        refine ⟨fun p' hp' hc => ?_, hpairs⟩
        have hburied := hshows.cancelled p' (hps p' (List.mem_cons_of_mem p hp')) hc
        exact hcross p' hburied ((hstarted p').mpr hp')
      · rintro ⟨hhead, hpairs⟩
        refine ⟨neverRestarted_of_not_started hnot ids, hpairs, fun id hid hin => ?_⟩
        exact hhead id ((hstarted id).mp hin) (hshows.buried id hid)

/-! ### Timers that are gone -/

/-- The timer `p` was there and is not any more. -/
def Gone (q : TimerQueue) (p : ℤ) : Prop := 0 < p ∧ p < q.id ∧ q.mTimers.lookup p = none

theorem Inv.not_mem_expired {q : TimerQueue} (h : Inv q) {p : ℤ} (hgone : q.Gone p) (now : ℤ) :
    p ∉ (q.beginHandling now).expired := by
  intro hin
  have hactive : p ∈ (q.beginHandling now).mActiveTimers := mem_of_mem_expired hin
  have hlive := h.live p hactive
  rw [hgone.2.2] at hlive
  cases hlive

theorem EventIds.gone_of_gone {q q' : TimerQueue} {e : Event} {ran : List ℤ} (h : EventIds q e ran q')
    {p : ℤ} (hgone : q.Gone p) : q'.Gone p := by
  have hnext := h.next
  obtain ⟨hpos, hlt, hnone⟩ := hgone
  refine ⟨hpos, by omega, ?_⟩
  by_cases hc : p ∈ cancelledIds (ran.flatMap e.task)
  · exact h.gone p hc
  · rw [← Option.not_isSome_iff_eq_none, h.kept p (by omega) hc]
    rintro (hnew | ⟨timer, ht, -⟩)
    · omega
    · rw [hnone] at ht
      cases ht

/-- The batch is the expired timers in the order of their expiries. -/
theorem Inv.noVictim_iff {q : TimerQueue} (h : Inv q) (e : Event) : q.NoVictim (.handle e) ↔
    (q.beginHandling e.now).expired.Pairwise fun p p' => p' ∉ cancelledIds (e.task p) := by
  obtain ⟨hb, -, hexp⟩ := h.beginHandling e.now
  have hmem := h.mem_expired_iff e.now
  have hsorted : KeySorted (q.beginHandling e.now).expire (q.beginHandling e.now).expired :=
    hb.sorted.sublist (List.takeWhile_sublist _)
  rw [hsorted.pairwise_iff]
  constructor
  · intro hno p hp p' hp' hlt
    obtain ⟨hin, -⟩ := (hmem p).mp hp
    obtain ⟨hin', hle'⟩ := (hmem p').mp hp'
    rw [hexp p hin, hexp p' hin'] at hlt
    exact hno p hin p' hin' hlt hle'
  · intro hno p hp p' hp' hlt hle
    refine hno p ((hmem p).mpr ⟨hp, by omega⟩) p' ((hmem p').mpr ⟨hp', hle⟩) ?_
    rw [hexp p hp, hexp p' hp']
    exact hlt

/-- What one call shows, and what it leaves. -/
structure Step (ids : List ℤ) (q : TimerQueue) (c : Call) (q' : TimerQueue) : Prop where
  resting : Resting q'
  issued : Issued (issuedIds ids (q.happenings c)) q'
  buried : ∀ id ∈ buriedIds ids (q.happenings c), q'.Gone id
  gone : ∀ p, q.Gone p → q'.Gone p ∧ .started p ∉ q.happenings c
  never : NeverRestarted ids (q.happenings c) ↔ q.NoVictim c

theorem Resting.add_step {q : TimerQueue} (h : Resting q) {ids : List ℤ} (hids : Issued ids q)
    (interval : ℤ) (repeated : Bool) (created armed : ℤ) :
    ∃ q', q.call order (.act (.add interval repeated created armed)) = .ok ([], q') ∧
      Step ids q (.act (.add interval repeated created armed)) q' := by
  obtain ⟨q', hadd, hrest, heff⟩ := h.addTimer interval repeated created armed
  have hnext := heff.next
  have hpos := h.inv.next
  dsimp only [addedTimers, List.length_cons, List.length_nil] at hnext
  refine ⟨q', ?_, hrest, ?_, ?_, ?_, ?_⟩
  · rw [call, act, hadd]
    rfl
  all_goals rw [happenings, actHappenings, hadd]
  · intro id
    rw [issuedIds, issuedIds, List.mem_cons, hids id]
    omega
  · exact fun id hid => absurd hid List.not_mem_nil
  · rintro p ⟨hp, hlt, hnone⟩
    refine ⟨⟨hp, by omega, ?_⟩, by simp⟩
    rw [heff.old p hlt]
    exact hnone
  · exact ⟨fun _ => trivial, fun _ => trivial⟩

theorem Resting.cancel_step {q : TimerQueue} (h : Resting q) {ids : List ℤ} (hids : Issued ids q)
    (c armed : ℤ) : ∃ q', q.call order (.act (.cancel c armed)) = .ok ([], q') ∧
      Step ids q (.act (.cancel c armed)) q' := by
  obtain ⟨q', hcancel, hrest, hid, htimers, -⟩ := h.cancelTimer c armed
  refine ⟨q', ?_, hrest, ?_, ?_, ?_, ?_⟩
  · rw [call, act, hcancel]
    rfl
  all_goals rw [happenings, actHappenings, hcancel]
  · intro id
    rw [issuedIds, issuedIds, hids id, hid]
  · intro id hin
    rw [buriedIds, buriedIds] at hin
    split at hin
    · next hc =>
      obtain rfl := List.mem_singleton.mp hin
      obtain ⟨hpos, hlt⟩ := (hids id).mp hc
      refine ⟨hpos, by omega, ?_⟩
      rw [htimers, lookup_removeTimer, if_pos rfl]
    · exact absurd hin List.not_mem_nil
  · rintro p ⟨hp, hlt, hnone⟩
    refine ⟨⟨hp, by omega, ?_⟩, by simp⟩
    rw [htimers, lookup_removeTimer, hnone, ite_self]
  · exact ⟨fun _ => trivial, fun _ => ⟨fun _ => List.not_mem_nil, trivial⟩⟩

theorem Resting.handle_step {q : TimerQueue} (h : Resting q) (horder : ∀ ids, (order ids).Perm ids)
    {ids : List ℤ} (hids : Issued ids q) (e : Event) :
    ∃ ran q', q.call order (.handle e) = .ok (ran, q') ∧ Step ids q (.handle e) q' := by
  obtain ⟨q', hhandle, hinv, hev⟩ := h.inv.handle_ids h.noneCancelled horder e
  obtain ⟨hb, -, -⟩ := h.inv.beginHandling e.now
  have hbids : Issued ids (q.beginHandling e.now) := hids
  have hnext := hev.next
  have hin : ∀ p ∈ (q.beginHandling e.now).expired, p ∈ ids := by
    intro p hp
    have hactive := mem_of_mem_expired hp
    exact (hbids p).mpr ⟨hb.pos p hactive, hb.lt_of_active hactive⟩
  obtain ⟨q1, q2, q3, hloops⟩ := hb.exists_loops rfl order e
  obtain ⟨hshows, hstarted, hiff⟩ := hb.runTasks_shows rfl hbids hin hloops.run
  have hid : q1.id = q'.id := by
    have h1 := (hb.runTasks_ids rfl hloops.run).next
    exact h1.trans hnext.symm
  have hissued : Issued (issuedIds ids (q.happenings (.handle e))) q' := by
    intro id
    rw [← hid]
    exact hshows.issued id
  refine ⟨_, q', hhandle, ⟨hinv, hev.idle, hev.noneCancelled⟩, hissued, ?_, ?_, hiff.trans (h.inv.noVictim_iff e).symm⟩
  · intro id hid
    obtain ⟨hpos, hlt⟩ := (hissued id).mp (mem_issuedIds_of_buried hid)
    exact ⟨hpos, hlt, hev.gone id (hshows.buried id hid)⟩
  · intro p hgone
    refine ⟨hev.gone_of_gone hgone, fun hin => ?_⟩
    exact h.inv.not_mem_expired hgone e.now ((hstarted p).mp hin)

theorem Resting.traced {q : TimerQueue} (h : Resting q) (horder : ∀ ids, (order ids).Perm ids)
    {ids : List ℤ} (hids : Issued ids q) (c : Call) :
    ∃ q', q.tracedCall order c = .ok (q.happenings c, q') ∧ Step ids q c q' := by
  have hcall : ∃ ran q', q.call order c = .ok (ran, q') ∧ Step ids q c q' := by
    cases c with
    | handle e => exact h.handle_step order horder hids e
    | act a =>
      cases a with
      | add interval repeated created armed =>
        exact ⟨[], h.add_step order hids interval repeated created armed⟩
      | cancel id armed => exact ⟨[], h.cancel_step order hids id armed⟩
  obtain ⟨ran, q', hcall, hstep⟩ := hcall
  refine ⟨q', ?_, hstep⟩
  rw [tracedCall, hcall]
  rfl

/-! ### Every run -/

/-- The run goes to its end, and timers that are gone do not start in it. -/
theorem Resting.run {q : TimerQueue} (h : Resting q) (horder : ∀ ids, (order ids).Perm ids)
    {ids : List ℤ} (hids : Issued ids q) (calls : List Call) :
    ∃ outs q', runOps (tracedCall order) q calls = .ok (outs, q') ∧
      (∀ p, q.Gone p → .started p ∉ outs.flatten) ∧
      (NeverRestarted ids outs.flatten ↔ StepsOk (tracedCall order) NoVictim q calls) := by
  induction calls generalizing q ids with
  | nil =>
    exact ⟨[], q, rfl, fun _ _ => List.not_mem_nil, fun _ => trivial, fun _ => trivial⟩
  | cons c calls ih =>
    obtain ⟨q1, hcall, hstep⟩ := h.traced order horder hids c
    obtain ⟨outs, q2, hrun, hgone, hiff⟩ := ih hstep.resting hstep.issued
    refine ⟨q.happenings c :: outs, q2, runOps_cons_ok hcall hrun, ?_, ?_⟩
    · intro p hp
      obtain ⟨hp1, hnot⟩ := hstep.gone p hp
      rw [List.flatten_cons, List.mem_append, not_or]
      exact ⟨hnot, hgone p hp1⟩
    · rw [List.flatten_cons, neverRestarted_append, stepsOk_cons_iff hcall, hstep.never, hiff]
      constructor
      · exact fun hall => ⟨hall.1, hall.2.1⟩
      · exact fun hall => ⟨hall.1, hall.2, fun id hid => hgone id (hstep.buried id hid)⟩

/-- In every run a task starts after its timer was cancelled if and only if in some event the
task of an expired timer cancels an expired timer whose turn is still to come. -/
theorem neverRestarted_iff_noVictim (horder : ∀ ids, (order ids).Perm ids) (calls : List Call) :
    ∃ outs q, runOps (tracedCall order) {} calls = .ok (outs, q) ∧
      (NeverRestarted [] outs.flatten ↔ StepsOk (tracedCall order) NoVictim {} calls) := by
  have hids : Issued [] ({} : TimerQueue) := by
    intro id
    refine ⟨fun hid => absurd hid List.not_mem_nil, fun hid => ?_⟩
    have hone : ({} : TimerQueue).id = 1 := rfl
    omega
  obtain ⟨outs, q, hrun, -, hiff⟩ := resting_new.run order horder hids calls
  exact ⟨outs, q, hrun, hiff⟩

/-- Timers 1 and 2 expire in one event; the task of the first cancels the second. -/
theorem neverRestarted_iff_noVictim_two :
    ∃ outs q, runOps (tracedCall List.reverse) {} [.act (.add 10 true 0 1), .act (.add 20 true 0 1),
        .handle ⟨30, fun p => if p = 1 then [.cancel 2 31] else [], fun _ => 40, 50⟩] = .ok (outs, q) ∧
      (NeverRestarted [] outs.flatten ↔ StepsOk (tracedCall List.reverse) NoVictim {}
        [.act (.add 10 true 0 1), .act (.add 20 true 0 1),
          .handle ⟨30, fun p => if p = 1 then [.cancel 2 31] else [], fun _ => 40, 50⟩]) :=
  neverRestarted_iff_noVictim List.reverse List.reverse_perm _

/-- In that run timer 2 starts after it was cancelled. -/
theorem restarted_in_batch :
    ∃ outs q, runOps (tracedCall List.reverse) {} [.act (.add 10 true 0 1), .act (.add 20 true 0 1),
        .handle ⟨30, fun p => if p = 1 then [.cancel 2 31] else [], fun _ => 40, 50⟩] = .ok (outs, q) ∧
      outs.flatten = [.added 1, .added 2, .started 1, .cancelled 2, .started 2] ∧
      ¬ NeverRestarted [] outs.flatten := by
  refine ⟨_, _, rfl, rfl, ?_⟩
  rintro ⟨hnot, -⟩
  exact hnot (by decide) (by decide)

end TimerQueue

end DeftRpc.Timers
