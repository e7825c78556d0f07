import DeftRpc.Coroutine.PollerMirror
import DeftRpc.Hook.Writev

/-!
# What the hooked calls leave in the Poller (Hook.cpp:92-223)

The events of a call are carried out on the Poller of the thread. While the
coroutine is away the rest of the thread may do to the Poller what it likes, but
not to the fd, which belongs to the coroutine.
-/

namespace DeftRpc.Hook
open DeftRpc.Foundation DeftRpc.Coroutine

def einprogress : Errno := .other 115

/-- `error` is what `getsockopt` says about `SO_ERROR`. The errno behind a later
failure is not modelled. -/
structure ConnectRun where
  result : ℤ
  events : List IoEvent
  rest : List SysResult

def connect (hooked : Bool) (script : List SysResult) (error : SysResult) : Option ConnectRun :=
  let value : SysResult → ℤ := fun result => match result with
    | .ok _ => 0
    | .error _ => -1
  if !hooked then
    match script with
    | [] => none
    | result :: rest => some ⟨value result, [.called result], rest⟩
  else do
    let first ← retryInterrupted script
    if first.result = .error einprogress then
      pure ⟨if error = .ok 0 then 0 else -1, first.events ++ [.registered .read, .yielded, .cancelled],
        first.rest⟩
    else pure ⟨value first.result, first.events, first.rest⟩

/-- `hooked` is `enable_hook` alone. -/
def accept4 (hooked : Bool) (script : List SysResult) : Option IoRun :=
  if !hooked then
    match script with
    | [] => none
    | result :: rest => some ⟨result, [.called result], rest⟩
  else do
    let first ← retryInterrupted script
    match first.result with
    | .error .eagain => do
      let second ← retryInterrupted first.rest
      let cancel := match second.result with
        | .ok _ => [.cancelled]
        | .error _ => []
      pure ⟨second.result, first.events ++ [.registered .read, .yielded] ++ second.events ++ cancel,
        second.rest⟩
    | _ => pure first

def accept (hooked : Bool) (script : List SysResult) : Option IoRun := accept4 hooked script

/-- A hooked call on a socket and the results of the underlying calls. -/
inductive Call where
  | read (script : List SysResult)
  | readv (script : List SysResult)
  | write (buf : List Byte) (script : List SysResult)
  | writev (iov : List (List Byte)) (script : List SysResult)
  | connect (script : List SysResult) (error : SysResult)
  | accept4 (script : List SysResult)
  | accept (script : List SysResult)

def Call.run : Call → Option (List IoEvent × List SysResult)
  | .read script => (ioBase true .read script).map fun r => (r.events, r.rest)
  | .readv script => (ioBase true .read script).map fun r => (r.events, r.rest)
  | .write buf script => (Hook.write true buf script).map fun r => (r.events, r.rest)
  | .writev iov script => (Hook.writev true iov script).map fun r => (r.events, r.rest)
  | .connect script error => (Hook.connect true script error).map fun r => (r.events, r.rest)
  | .accept4 script => (Hook.accept4 true script).map fun r => (r.events, r.rest)
  | .accept script => (Hook.accept true script).map fun r => (r.events, r.rest)

def Call.Returns (c : Call) : Prop := ∃ events, c.run = some (events, [])

/-! ### When a call leaves a registration behind -/

/-- At least one result, and none a success. -/
def onlyRefusals (script : List SysResult) : Bool :=
  !script.isEmpty && script.all fun result => match result with
    | .ok _ => false
    | .error _ => true

/-- The results end with an EAGAIN and refusals behind it. -/
def failsWaiting : List SysResult → Bool
  | [] => false
  | .error .eagain :: script => onlyRefusals script || failsWaiting script
  | _ :: script => failsWaiting script

def Call.failsWaiting : Call → Bool
  | .read script => Hook.failsWaiting script
  | .readv script => Hook.failsWaiting script
  | .write _ script => Hook.failsWaiting script
  | .writev _ script => Hook.failsWaiting script
  | .connect _ _ => false
  | .accept4 script => Hook.failsWaiting script
  | .accept script => Hook.failsWaiting script

/-! ### The registration along the events -/

/-- Whether the fd is registered after the events, `none` where it would be
registered twice. -/
def follow : Bool → List IoEvent → Option Bool
  | waiting, [] => some waiting
  | waiting, .called _ :: events => follow waiting events
  | waiting, .yielded :: events => follow waiting events
  | waiting, .registered _ :: events => if waiting then none else follow true events
  | _, .cancelled :: events => follow false events

theorem follow_append (waiting : Bool) (events rest : List IoEvent) :
    follow waiting (events ++ rest) = (follow waiting events).bind fun w => follow w rest := by
  induction events generalizing waiting with
  | nil => rfl
  | cons event events ih =>
    cases event with
    | called result => exact ih waiting
    | yielded => exact ih waiting
    | cancelled => exact ih false
    | registered event =>
      cases waiting with
      | true => rfl
      | false => exact ih true

theorem failsWaiting_ok (refused : List Errno) (k : ℕ) (script : List SysResult) :
    failsWaiting (refused.map Except.error ++ .ok k :: script) = failsWaiting script := by
  induction refused with
  | nil => rfl
  | cons e refused ih =>
    cases e <;> simp [failsWaiting, onlyRefusals, ih]

theorem failsWaiting_error (refused : List Errno) (e : Errno) :
    failsWaiting (refused.map Except.error ++ [.error e]) = decide (Errno.eagain ∈ refused) := by
  induction refused with
  | nil => cases e <;> simp [failsWaiting, onlyRefusals]
  | cons e' refused ih =>
    cases e' <;> simp [failsWaiting, onlyRefusals, ih]

theorem retryInterrupted_follow {script : List SysResult} {r : IoRun}
    (h : retryInterrupted script = some r) :
    (∃ refused : List Errno, Errno.eagain ∉ refused ∧
        script = refused.map Except.error ++ r.result :: r.rest) ∧
      ∀ waiting, follow waiting r.events = some waiting := by
  induction script generalizing r with
  | nil => cases h
  | cons result script ih =>
    obtain ⟨rfl, r', hr', rfl⟩ | rfl := retryInterrupted_cons h
    · obtain ⟨⟨refused, hnot, hscript⟩, hfollow⟩ := ih hr'
      exact ⟨⟨.eintr :: refused, by simp [hnot], by simp [hscript]⟩, hfollow⟩
    · exact ⟨⟨[], List.not_mem_nil, rfl⟩, fun _ => rfl⟩

theorem retryBlocked_follow {script : List SysResult} {r : IoRun}
    (h : retryBlocked script = some r) (waiting : Bool) :
    follow waiting r.events = some waiting := by
  induction script generalizing r with
  | nil => cases h
  | cons result script ih =>
    obtain ⟨e, rfl, r', hr', rfl⟩ | rfl := retryBlocked_cons h
    · show follow waiting r'.events = some waiting
      exact ih hr'
    · rfl

/-- The events carried out use up `script` down to `rest`, leave the registration that
the results used up say, and, where `success` holds, end with a success. -/
def Settles (script : List SysResult) (events : List IoEvent) (rest : List SysResult)
    (success : Prop) : Prop :=
  ∃ used, script = used ++ rest ∧ follow false events = some (failsWaiting used) ∧
    (success → ∀ more, failsWaiting (used ++ more) = failsWaiting more)

theorem Settles.append {script mid rest : List SysResult} {first second : List IoEvent}
    {success : Prop} (h1 : Settles script first mid True) (h2 : Settles mid second rest success) :
    Settles script (first ++ second) rest success := by
  obtain ⟨used1, hscript, hfollow1, hsucc1⟩ := h1
  obtain ⟨used2, hmid, hfollow2, hsucc2⟩ := h2
  have hskip := hsucc1 trivial
  refine ⟨used1 ++ used2, by simp [hscript, hmid], ?_, fun hs more => ?_⟩
  · have hnone : failsWaiting used1 = false := by simpa [failsWaiting] using hskip []
    rw [follow_append, hfollow1, hnone, Option.bind_some, hskip]
    exact hfollow2
  · rw [List.append_assoc, hskip]
    exact hsucc2 hs more

theorem Settles.weaken {script rest : List SysResult} {events : List IoEvent} {success success' : Prop}
    (h : Settles script events rest success) (himp : success' → success) :
    Settles script events rest success' := by
  obtain ⟨used, hscript, hfollow, hsucc⟩ := h
  exact ⟨used, hscript, hfollow, fun hs => hsucc (himp hs)⟩

theorem Settles.returns {script : List SysResult} {events : List IoEvent} {success : Prop}
    (h : Settles script events [] success) : follow false events = some (failsWaiting script) := by
  obtain ⟨used, hscript, hfollow, -⟩ := h
  rw [hscript, List.append_nil]
  exact hfollow

/-- One result behind refusals: a success leaves nothing, a failure what an EAGAIN
before it has left. -/
theorem settles_result {refused : List Errno} {result : SysResult} {rest : List SysResult}
    {events : List IoEvent}
    (hok : ∀ k, result = .ok k → follow false events = some false)
    (herror : ∀ e, result = .error e → follow false events = some (decide (Errno.eagain ∈ refused))) :
    Settles (refused.map Except.error ++ result :: rest) events rest (∃ k, result = .ok k) := by
  refine ⟨refused.map Except.error ++ [result], by simp, ?_, ?_⟩
  · cases result with
    | ok k => simpa [failsWaiting_ok, failsWaiting] using hok k rfl
    | error e => simpa [failsWaiting_error] using herror e rfl
  · rintro ⟨k, rfl⟩ more
    rw [List.append_assoc]
    exact failsWaiting_ok refused k more

theorem first_settles {script : List SysResult} {first : IoRun}
    (h : retryInterrupted script = some first) :
    Settles script first.events first.rest (∃ k, first.result = .ok k) := by
  obtain ⟨⟨refused, hnot, hscript⟩, hfollow⟩ := retryInterrupted_follow h
  rw [hscript]
  exact settles_result (fun _ _ => hfollow false) fun _ _ => by simp [hfollow, hnot]

/-- Behind a first call that would block the fd waits, and only a success cancels. -/
theorem blocked_settles {script : List SysResult} {first : IoRun}
    (hfirst : retryInterrupted script = some first) (he : first.result = .error .eagain)
    {refused : List Errno} {result : SysResult} {rest : List SysResult}
    (hrest : first.rest = refused.map Except.error ++ result :: rest) {wait last : List IoEvent}
    (hwait : follow false wait = some true) (hok : ∀ k, result = .ok k → last = [.cancelled])
    (herror : ∀ e, result = .error e → last = []) :
    Settles script (first.events ++ wait ++ last) rest (∃ k, result = .ok k) := by
  obtain ⟨⟨refused1, -, hscript⟩, hfollow⟩ := retryInterrupted_follow hfirst
  have hall : script = (refused1 ++ .eagain :: refused).map Except.error ++ result :: rest := by
    rw [hscript, he, hrest]
    simp
  rw [hall]
  refine settles_result (fun k hk => ?_) fun e he => ?_
  · simp [follow_append, hfollow, hwait, follow, hok k hk]
  · simp [follow_append, hfollow, hwait, herror e he]

theorem ioBase_settles {event : KEvent} {script : List SysResult} {r : IoRun}
    (h : ioBase true event script = some r) :
    Settles script r.events r.rest (∃ k, r.result = .ok k) := by
  obtain ⟨first, hfirst, h2⟩ := Option.bind_eq_some_iff.mp h
  split at h2
  · next he =>
    obtain ⟨second, hsecond, h3⟩ := Option.bind_eq_some_iff.mp h2
    obtain ⟨refused, hrest⟩ := retryBlocked_consumes hsecond
    have hfollow := retryBlocked_follow hsecond true
    cases h3
    rw [List.append_assoc first.events]
    refine blocked_settles hfirst he hrest ?_ (fun k hk => ?_) fun e he => ?_
    · simp [follow, hfollow]
    · rw [hk]
    · rw [he]
  · cases h2
    exact first_settles hfirst

theorem accept4_settles {script : List SysResult} {r : IoRun} (h : accept4 true script = some r) :
    Settles script r.events r.rest (∃ k, r.result = .ok k) := by
  obtain ⟨first, hfirst, h2⟩ := Option.bind_eq_some_iff.mp h
  split at h2
  · next he =>
    obtain ⟨second, hsecond, h3⟩ := Option.bind_eq_some_iff.mp h2
    obtain ⟨⟨refused, -, hrest⟩, hfollow⟩ := retryInterrupted_follow hsecond
    cases h3
    rw [List.append_assoc first.events]
    refine blocked_settles hfirst he hrest ?_ (fun k hk => ?_) fun e he => ?_
    · simp [follow, hfollow]
    · rw [hk]
    · rw [he]
  · cases h2
    exact first_settles hfirst

theorem writeLoop_settles {buf : List Byte} {turns total : ℕ} {script : List SysResult}
    {run : WriteRun} (h : writeLoop true buf turns total script = some run) :
    Settles script run.events run.rest (0 ≤ run.result) := by
  induction turns generalizing total script run with
  | zero => cases h
  | succ turns ih =>
    obtain ⟨r, hio, h⟩ := Option.bind_eq_some_iff.mp h
    have hr := ioBase_settles hio
    have hsuccess : 0 ≤ writeResult buf r.result → ∃ k, r.result = .ok k := by
      intro hle
      cases hres : r.result with
      | ok k => exact ⟨k, rfl⟩
      | error e => simp [hres, writeResult] at hle
    dsimp only at h
    split at h
    · cases h
      exact hr.weaken hsuccess
    · next hpos =>
      have hr' := hr.weaken fun _ : True => hsuccess (by omega)
      split at h
      · obtain ⟨run', hrun', h3⟩ := Option.bind_eq_some_iff.mp h
        cases h3
        exact hr'.append (ih hrun')
      · cases h
        exact hr'.weaken fun _ => trivial

theorem advance_settles {totalWrite n : ℕ} {script : List SysResult} {iov : List (List Byte)}
    {a : AdvanceRun} (h : advance true totalWrite n script iov = some a) :
    Settles script a.events a.rest (∃ t, a.totalWrite = some t) := by
  induction iov generalizing n with
  | nil =>
    cases h
    exact ⟨[], rfl, rfl, fun _ _ => rfl⟩
  | cons part iov ih =>
    rw [advance] at h
    split at h
    · exact ih h
    · obtain ⟨run, hwrite, h⟩ := Option.bind_eq_some_iff.mp h
      have hrun := writeLoop_settles hwrite
      split at h
      · cases h
        exact hrun.weaken (by simp)
      · next heq =>
        cases h
        exact hrun.weaken fun _ => by rw [← not_not.mp heq]; exact Int.natCast_nonneg _

theorem writevLoop_settles {turns total : ℕ} {iov : List (List Byte)} {script : List SysResult}
    {run : WriteRun} (h : writevLoop true turns iov total script = some run) :
    Settles script run.events run.rest (0 ≤ run.result) := by
  induction turns generalizing iov total script run with
  | zero => cases h
  | succ turns ih =>
    obtain ⟨r, hio, h⟩ := Option.bind_eq_some_iff.mp h
    have hr := ioBase_settles hio
    split at h
    · cases h
      exact hr.weaken (by simp)
    · next k hres =>
      have hr' := hr.weaken fun _ : True => ⟨k, hres⟩
      obtain ⟨a, hadvance, h⟩ := Option.bind_eq_some_iff.mp h
      have ha := advance_settles hadvance
      dsimp only at h
      split at h
      · cases h
        exact hr'.append (ha.weaken (by simp))
      · next t ht =>
        have ha' := ha.weaken fun _ : True => ⟨t, ht⟩
        split at h
        · cases h
          exact (hr'.append ha').weaken fun _ => trivial
        · obtain ⟨run', hrun', h3⟩ := Option.bind_eq_some_iff.mp h
          cases h3
          exact (hr'.append ha').append (ih hrun')

theorem connect_follow {script : List SysResult} {error : SysResult} {r : ConnectRun}
    (h : connect true script error = some r) : follow false r.events = some false := by
  obtain ⟨first, hfirst, h⟩ := Option.bind_eq_some_iff.mp h
  have hfollow := (retryInterrupted_follow hfirst).2 false
  dsimp only at h
  split at h
  · cases h
    simp [follow_append, hfollow, follow]
  · cases h
    exact hfollow

theorem call_follow {c : Call} {events : List IoEvent} (h : c.run = some (events, [])) :
    follow false events = some c.failsWaiting := by
  have split_run : ∀ {R : Type} {o : Option R} {f : R → List IoEvent} {g : R → List SysResult},
      (o.map fun r => (f r, g r)) = some (events, []) → ∃ r, o = some r ∧ f r = events ∧ g r = [] := by
    intro R o f g hmap
    obtain ⟨r, hr, he⟩ := Option.map_eq_some_iff.mp hmap
    exact ⟨r, hr, (Prod.mk.inj he).1, (Prod.mk.inj he).2⟩
  cases c with
  | read script =>
    obtain ⟨r, hr, rfl, hrest⟩ := split_run h
    exact (hrest ▸ ioBase_settles hr).returns
  | readv script =>
    obtain ⟨r, hr, rfl, hrest⟩ := split_run h
    exact (hrest ▸ ioBase_settles hr).returns
  | write buf script =>
    obtain ⟨r, hr, rfl, hrest⟩ := split_run h
    exact (hrest ▸ writeLoop_settles hr).returns
  | writev iov script =>
    obtain ⟨r, hr, rfl, hrest⟩ := split_run h
    exact (hrest ▸ writevLoop_settles hr).returns
  | connect script error =>
    obtain ⟨r, hr, rfl, -⟩ := split_run h
    exact connect_follow hr
  | accept4 script =>
    obtain ⟨r, hr, rfl, hrest⟩ := split_run h
    exact (hrest ▸ accept4_settles hr).returns
  | accept script =>
    obtain ⟨r, hr, rfl, hrest⟩ := split_run h
    exact (hrest ▸ accept4_settles (show accept4 true script = some r from hr)).returns

/-! ### The events on the Poller -/

def register (p : Poller) (event : KEvent) (fd : ℤ) (coroutine : ℕ) (mayWork : Bool) :
    Outcome × Poller :=
  if event = .read then p.registerRead fd (.coroutine coroutine) mayWork
  else p.registerWrite fd (.coroutine coroutine) mayWork

/-- Nothing of `fd` has changed, and the table has not become smaller. -/
def Elsewhere (fd : ℤ) (p q : Poller) : Prop := Poller.SameAt fd p q ∧ p.size ≤ q.size

/-- The events of one call, up to its return or to what the Poller throws. -/
inductive Plays (fd : ℤ) (coroutine : ℕ) : Poller → List IoEvent → Outcome → Poller → Prop where
  | returned (p : Poller) : Plays fd coroutine p [] .returned p
  | called {p q : Poller} {events : List IoEvent} {o : Outcome} (result : SysResult) :
      Plays fd coroutine p events o q → Plays fd coroutine p (.called result :: events) o q
  | yielded {p p' q : Poller} {events : List IoEvent} {o : Outcome} :
      Elsewhere fd p p' → Plays fd coroutine p' events o q →
        Plays fd coroutine p (.yielded :: events) o q
  | registered {p p' q : Poller} {event : KEvent} {events : List IoEvent} {o : Outcome}
      (mayWork : Bool) : register p event fd coroutine mayWork = (.returned, p') →
        Plays fd coroutine p' events o q → Plays fd coroutine p (.registered event :: events) o q
  | registerThrows {p q : Poller} {event : KEvent} (events : List IoEvent) {what : String}
      (mayWork : Bool) : register p event fd coroutine mayWork = (.thrown what, q) →
        Plays fd coroutine p (.registered event :: events) (.thrown what) q
  | cancelled {p p' q : Poller} {events : List IoEvent} {o : Outcome} (mayWork : Bool) :
      p.cancelRegister fd mayWork = (.returned, p') →
        Plays fd coroutine p' events o q → Plays fd coroutine p (.cancelled :: events) o q
  | cancelThrows {p q : Poller} (events : List IoEvent) {what : String} (mayWork : Bool) :
      p.cancelRegister fd mayWork = (.thrown what, q) →
        Plays fd coroutine p (.cancelled :: events) (.thrown what) q

/-- One call after the other, seen up to any of them. A call that throws is the last. -/
inductive Runs (fd : ℤ) (coroutine : ℕ) : Poller → List Call → List (Outcome × Poller) → Prop where
  | seen (p : Poller) (calls : List Call) : Runs fd coroutine p calls []
  | returned {p q : Poller} {c : Call} {calls : List Call} {results : List (Outcome × Poller)}
      {events rest} : c.run = some (events, rest) → Plays fd coroutine p events .returned q →
        Runs fd coroutine q calls results →
          Runs fd coroutine p (c :: calls) ((.returned, q) :: results)
  | threw {p q : Poller} {c : Call} (calls : List Call) {events rest} {what : String} :
      c.run = some (events, rest) → Plays fd coroutine p events (.thrown what) q →
        Runs fd coroutine p (c :: calls) [(.thrown what, q)]

def Unregistered (fd : ℤ) (p : Poller) : Prop := p.context fd = {} ∧ p.interest fd = none

/-- What every call of a coroutine should do. -/
def Releases (fd : ℤ) (r : Outcome × Poller) : Prop :=
  (r.1 = .returned → Unregistered fd r.2) ∧ r.1 ≠ .thrown "fd register read twice!"

/-- The state of the fd along the events. -/
structure At (fd : ℤ) (waiting : Bool) (p : Poller) : Prop where
  pos : 0 < p.size
  idle : waiting = false → Unregistered fd p
  waits : waiting = true → (p.context fd).mEvent ≠ 0 ∧ (p.interest fd).isSome = true

theorem At.elsewhere {fd : ℤ} {waiting : Bool} {p q : Poller} (h : At fd waiting p)
    (he : Elsewhere fd p q) : At fd waiting q := by
  obtain ⟨⟨hcontext, hinterest⟩, hsize⟩ := he
  have hpos := h.pos
  refine ⟨by omega, fun hw => ?_, fun hw => ?_⟩
  · have hidle := h.idle hw
    exact ⟨hcontext.trans hidle.1, hinterest.trans hidle.2⟩
  · rw [hcontext, hinterest]
    exact h.waits hw

theorem register_spec {fd : ℤ} (hfd : 0 ≤ fd) {p : Poller} (h : At fd false p) (event : KEvent)
    (coroutine : ℕ) (mayWork : Bool) :
    ∃ q, register p event fd coroutine mayWork
        = (if mayWork then .returned else .thrown "register m_socket_ failed!", q) ∧
      (mayWork = true → At fd true q) := by
  obtain ⟨hcontext, hinterest⟩ := h.idle rfl
  obtain ⟨reading, hreading⟩ : ∃ reading : Bool, register p event fd coroutine mayWork
      = p.registerFd (Poller.wanted reading fd (.coroutine coroutine)) mayWork := by
    unfold register
    split
    · exact ⟨true, by simp [Poller.registerRead_eq p hfd, hcontext, RunnableContext.isReading]⟩
    · exact ⟨false, by simp [Poller.registerWrite_eq p fd, hcontext, RunnableContext.isWriting]⟩
  have hwanted : (Poller.wanted reading fd (.coroutine coroutine)).mFd = fd := by
    cases reading <;> rfl
  obtain ⟨q, hq, hnew, hinterest', hpos, -⟩ := Poller.registerFd_spec h.pos
    (Poller.wanted reading fd (.coroutine coroutine)) (by rw [hwanted]; exact hfd) mayWork
    (by rw [hwanted, hcontext, hinterest]; rfl)
  rw [hwanted, hcontext] at hnew
  rw [hwanted] at hinterest'
  refine ⟨q, hreading.trans hq, fun hworks => ⟨hpos, by simp, fun _ => ⟨?_, ?_⟩⟩⟩
  · rw [hnew]
    cases reading <;>
      simp [Poller.registered, Poller.wanted, RunnableContext.isNoneEvent, epollIn, epollOut]
  · simp [hinterest', hworks]

theorem cancel_spec {fd : ℤ} (hfd : 0 ≤ fd) {waiting : Bool} {p : Poller} (h : At fd waiting p)
    (mayWork : Bool) :
    ∃ o q, p.cancelRegister fd mayWork = (o, q) ∧ o ≠ .thrown "fd register read twice!" ∧
      (o = .returned → At fd false q) ∧ (mayWork = true → o = .returned) := by
  cases waiting with
  | false =>
    refine ⟨_, p, Poller.cancelRegister_empty hfd (h.idle rfl).1 mayWork, ?_, fun _ => h, fun _ => rfl⟩
    simp
  | true =>
    obtain ⟨hevent, hknown⟩ := h.waits rfl
    obtain ⟨q, hq, hcontext, hinterest, hpos, -⟩ :=
      Poller.cancelRegister_spec hfd hevent hknown mayWork
    cases mayWork with
    | false => exact ⟨_, q, hq, by simp, by simp, by simp⟩
    | true => exact ⟨_, q, hq, by simp, fun _ => ⟨hpos, fun _ => ⟨hcontext, hinterest⟩, by simp⟩, fun _ => rfl⟩

/-- Along the events the Poller holds the fd exactly when `follow` says so. -/
theorem plays_at {fd : ℤ} (hfd : 0 ≤ fd) {coroutine : ℕ} {p q : Poller} {events : List IoEvent}
    {o : Outcome} (h : Plays fd coroutine p events o q) {waiting waiting' : Bool}
    (hat : At fd waiting p) (hfollow : follow waiting events = some waiting') :
    (o = .returned → At fd waiting' q) ∧ o ≠ .thrown "fd register read twice!" := by
  induction h generalizing waiting with
  | returned p =>
    cases hfollow
    exact ⟨fun _ => hat, by simp⟩
  | called result _ ih => exact ih hat hfollow
  | yielded he _ ih => exact ih (hat.elsewhere he) hfollow
  | registered mayWork hr _ ih =>
    cases waiting with
    | true => cases hfollow
    | false =>
      obtain ⟨q', hq', hat'⟩ := register_spec hfd hat _ coroutine mayWork
      rw [hr] at hq'
      cases mayWork with
      | false => simp at hq'
      | true =>
        obtain ⟨-, rfl⟩ := Prod.mk.inj hq'
        exact ih (hat' rfl) hfollow
  | registerThrows events mayWork hr =>
    cases waiting with
    | true => cases hfollow
    | false =>
      obtain ⟨q', hq', -⟩ := register_spec hfd hat _ coroutine mayWork
      rw [hr] at hq'
      cases mayWork with
      | true => simp at hq'
      | false =>
        obtain ⟨hwhat, -⟩ := Prod.mk.inj hq'
        rw [hwhat]
        simp
  | cancelled mayWork hr _ ih =>
    obtain ⟨o', q', hq', -, hat', -⟩ := cancel_spec hfd hat mayWork
    rw [hr] at hq'
    obtain ⟨rfl, rfl⟩ := Prod.mk.inj hq'
    exact ih (hat' rfl) hfollow
  | cancelThrows events mayWork hr =>
    obtain ⟨o', q', hq', hnot, -, -⟩ := cancel_spec hfd hat mayWork
    rw [hr] at hq'
    obtain ⟨rfl, -⟩ := Prod.mk.inj hq'
    exact ⟨by simp, hnot⟩

/-- With a kernel that follows, and a thread that does nothing else, the call returns. -/
theorem plays_exists {fd : ℤ} (hfd : 0 ≤ fd) (coroutine : ℕ) (events : List IoEvent) {p : Poller}
    {waiting waiting' : Bool} (hat : At fd waiting p)
    (hfollow : follow waiting events = some waiting') :
    ∃ q, Plays fd coroutine p events .returned q := by
  induction events generalizing p waiting with
  | nil => exact ⟨p, .returned p⟩
  | cons event events ih =>
    cases event with
    | called result =>
      obtain ⟨q, hq⟩ := ih hat hfollow
      exact ⟨q, .called result hq⟩
    | yielded =>
      obtain ⟨q, hq⟩ := ih hat hfollow
      exact ⟨q, .yielded ⟨⟨rfl, rfl⟩, le_refl _⟩ hq⟩
    | registered event =>
      cases waiting with
      | true => cases hfollow
      | false =>
        obtain ⟨q', hq', hat'⟩ := register_spec hfd hat event coroutine true
        obtain ⟨q, hq⟩ := ih (hat' rfl) hfollow
        exact ⟨q, .registered true hq' hq⟩
    | cancelled =>
      obtain ⟨o', q', hq', -, hat', hreturns⟩ := cancel_spec hfd hat true
      obtain ⟨q, hq⟩ := ih (hat' (hreturns rfl)) hfollow
      exact ⟨q, .cancelled true (hreturns rfl ▸ hq') hq⟩

theorem not_unregistered_of_waiting {fd : ℤ} {p : Poller} (h : At fd true p) : ¬ Unregistered fd p :=
  fun hu => (h.waits rfl).1 (by rw [hu.1])

theorem runs_release_iff {fd : ℤ} (hfd : 0 ≤ fd) (coroutine : ℕ) (calls : List Call)
    (hreturns : ∀ c ∈ calls, c.Returns) {p : Poller} (hat : At fd false p) :
    (∀ results, Runs fd coroutine p calls results → ∀ r ∈ results, Releases fd r) ↔
      ∀ c ∈ calls, c.failsWaiting = false := by
  induction calls generalizing p with
  | nil =>
    refine iff_of_true (fun results h => ?_) (by simp)
    cases h
    simp
  | cons c calls ih =>
    obtain ⟨events, hrun⟩ := hreturns c List.mem_cons_self
    have hrest : ∀ c' ∈ calls, c'.Returns := fun c' hc' => hreturns c' (List.mem_cons_of_mem _ hc')
    have hfollow := call_follow hrun
    constructor
    · intro h
      obtain ⟨q, hq⟩ := plays_exists hfd coroutine events hat hfollow
      have hqat := (plays_at hfd hq hat hfollow).1 rfl
      have hfirst := h _ (.returned hrun hq (.seen q calls)) _ List.mem_cons_self
      have hnot : c.failsWaiting = false := by
        by_contra hfails
        rw [Bool.not_eq_false] at hfails
        rw [hfails] at hqat
        exact not_unregistered_of_waiting hqat (hfirst.1 rfl)
      rw [hnot] at hqat
      refine List.forall_mem_cons.mpr ⟨hnot, (ih hrest hqat).mp fun results hr r hmem => ?_⟩
      exact h _ (.returned hrun hq hr) r (List.mem_cons_of_mem _ hmem)
    · intro h results hruns
      obtain ⟨hnot, htail⟩ := List.forall_mem_cons.mp h
      rw [hnot] at hfollow
      cases hruns with
      | seen => simp
      | returned hrun' hplays hr =>
        rw [hrun] at hrun'
        cases hrun'
        have hqat := (plays_at hfd hplays hat hfollow).1 rfl
        exact List.forall_mem_cons.mpr ⟨⟨fun _ => hqat.idle rfl, by simp⟩,
          (ih hrest hqat).mpr htail _ hr⟩
      | threw calls hrun' hplays =>
        rw [hrun] at hrun'
        cases hrun'
        have hthrown := (plays_at hfd hplays hat hfollow).2
        exact List.forall_mem_singleton.mpr ⟨by simp, hthrown⟩

/-- Every call releases the fd, whatever else happens on the thread and however the
kernel answers `epoll_ctl`, exactly when no call fails after it has waited. -/
theorem calls_release_iff {fd : ℤ} (hfd : 0 ≤ fd) (coroutine : ℕ) (calls : List Call)
    (hreturns : ∀ c ∈ calls, c.Returns) (p : Poller) (hsize : 0 < p.size)
    (hfresh : Unregistered fd p) :
    (∀ results, Runs fd coroutine p calls results → ∀ r ∈ results, Releases fd r) ↔
      ∀ c ∈ calls, c.failsWaiting = false :=
  runs_release_iff hfd coroutine calls hreturns ⟨hsize, fun _ => hfresh, by simp⟩

theorem fresh_unregistered (fd : ℤ) : Unregistered fd {} := ⟨Poller.fresh_context fd, rfl⟩

/-- A read that waits and is interrupted, then an accept. -/
theorem calls_release_iff_two :
    (∀ results, Runs 5 1 {} [.read [.error .eagain, .error .eintr, .ok 3], .accept4 [.ok 7]] results →
        ∀ r ∈ results, Releases 5 r) ↔
      ∀ c ∈ [Call.read [.error .eagain, .error .eintr, .ok 3], .accept4 [.ok 7]],
        c.failsWaiting = false :=
  calls_release_iff (by decide) 1 _
    (List.forall_mem_cons.mpr ⟨⟨_, rfl⟩, List.forall_mem_cons.mpr ⟨⟨_, rfl⟩, by simp⟩⟩) {}
    Poller.fresh_mirrorInv.pos (fresh_unregistered 5)

/-- The Poller with coroutine 1 waiting for fd 5. -/
def waitingFor5 : Poller := (register {} .read 5 1 true).2

theorem waitingFor5_eq : register {} .read 5 1 true = (.returned, waitingFor5) := by
  have hreturned : (register {} .read 5 1 true).1 = .returned := by decide +kernel
  rw [waitingFor5, ← hreturned]

theorem waitingFor5_registered : ¬ Unregistered 5 waitingFor5 := by
  intro h
  have hevent := congrArg RunnableContext.mEvent h.1
  revert hevent
  decide +kernel

/-- A connection reset after a wait, and the next read throws; an accept that wakes up
for nothing. -/
theorem leaves_registered :
    (∃ q q', Runs 5 1 {} [.read [.error .eagain, .error (.other 104)], .read [.error .eagain, .ok 1]]
        [(.returned, q), (.thrown "fd register read twice!", q')] ∧ ¬ Unregistered 5 q) ∧
      ∃ q, Runs 5 1 {} [.accept4 [.error .eagain, .error .eagain]] [(.returned, q)] ∧
        ¬ Unregistered 5 q := by
  have hstay : Elsewhere 5 waitingFor5 waitingFor5 := ⟨⟨rfl, rfl⟩, le_refl _⟩
  have htwice : register waitingFor5 .read 5 1 true
      = (.thrown "fd register read twice!", (register waitingFor5 .read 5 1 true).2) := by
    have hthrown : (register waitingFor5 .read 5 1 true).1 = .thrown "fd register read twice!" := by
      decide +kernel
    rw [← hthrown]
  refine ⟨⟨waitingFor5, (register waitingFor5 .read 5 1 true).2, ?_, waitingFor5_registered⟩, waitingFor5, ?_, waitingFor5_registered⟩
  · refine .returned (show Call.run _ = some (_, []) from rfl) ?_
      (.threw [] (show Call.run _ = some (_, []) from rfl) ?_)
    · exact .called _ (.registered true waitingFor5_eq (.yielded hstay (.called _ (.returned _))))
    · exact .called _ (.registerThrows _ true htwice)
  · refine .returned (show Call.run _ = some (_, []) from rfl) ?_ (.seen _ _)
    exact .called _ (.registered true waitingFor5_eq (.yielded hstay (.called _ (.returned _))))

end DeftRpc.Hook
