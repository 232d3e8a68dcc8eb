import Systeml.Lib.Slice
import Systeml.Runtime.Once

/-!
# Last fires over restarts

The scheduler keeps the last fires of its timers in memory, and in stamp files for the next
time the daemon comes up. A run now goes over several lives of the daemon: each begins with
an empty memory and the files that the one before has left.

Memory and files together are one register for each timer, of the second in which it last
fired, that restarts do not touch: what the scheduler reckons with is decided by the fires
and the activations of the whole run (`lastFire_run`), as long as the files can be written.
-/

namespace Systeml.Runtime

open Systeml.Lib Systeml.Unit Systeml.Deps

/-! ## Registers -/

/-- What is noted of a timer. -/
inductive Note where
  /-- It has fired in this second. -/
  | fired (timer : UnitName) (sec : Int)
  /-- It counts from this second, unless it has fired before. -/
  | since (timer : UnitName) (sec : Int)
  deriving DecidableEq

/-- The second of the last fire of each timer. -/
abbrev Registers : Type := UnitName → Option Int

namespace Note

def apply (r : Registers) : Note → Registers
  | fired n x => Function.update r n (some x)
  | since n x => Function.update r n ((r n).or (some x))

def fire? : Note → Option (UnitName × Int)
  | fired n x => some (n, x)
  | since .. => none

def since? : Note → Option (UnitName × Int)
  | since n x => some (n, x)
  | fired .. => none

/-- What notes make of a register: the last fire, or else what it held, or else the first
second to count from. -/
theorem foldl_apply (n : UnitName) : ∀ (notes : List Note) (r : Registers),
    notes.foldl apply r n = (IndexMap.last (notes.filterMap fire?) n).or
      ((r n).or (IndexMap.first (notes.filterMap since?) n))
  | [], r => by
    show r n = (r n).or none
    rw [Option.or_none]
  | fired k x :: notes, r => by
    rw [List.foldl_cons, foldl_apply n notes]
    show _ = (IndexMap.last ((k, x) :: notes.filterMap fire?) n).or
      ((r n).or (IndexMap.first (notes.filterMap since?) n))
    rw [IndexMap.last_cons, Option.or_assoc]
    by_cases hk : k = n
    · subst hk
      simp [apply]
    · simp [apply, hk, Function.update_of_ne (Ne.symm hk)]
  | since k x :: notes, r => by
    rw [List.foldl_cons, foldl_apply n notes]
    show _ = (IndexMap.last (notes.filterMap fire?) n).or
      ((r n).or (IndexMap.first ((k, x) :: notes.filterMap since?) n))
    rw [IndexMap.first_cons]
    by_cases hk : k = n
    · subst hk
      simp [apply]
    · simp [apply, hk, Function.update_of_ne (Ne.symm hk)]

end Note

namespace TimerScheduler

variable {s s' : TimerScheduler} {n : UnitName}

/-! ## Lives of the daemon -/

/-- A step of the scheduler, or the end of one life of the daemon and the beginning of the
next. -/
inductive LifeStep where
  | act (a : Action)
  | restart (m : Manager)

/-- The scheduler of a daemon that has come up again. Only the files are left. -/
def restarted (s : TimerScheduler) (m : Manager) : TimerScheduler :=
  { clock := s.clock, mgr := m, stamps := s.stamps, managerStart := s.clock,
    lastFires := .empty, triggers := .empty, phase := .ready }

def lifeStep (s : TimerScheduler) : LifeStep → Option TimerScheduler
  | .act a => s.step a
  | .restart m => some (s.restarted m)

/-- What the activation of a timer notes. -/
def activationNotes (s : TimerScheduler) (n : UnitName) : List Note :=
  if n.kind = .timer ∧ (s.timerUnit n).any TimerUnit.persistent = true then [.since n s.clock.sec]
  else []

/-- What a step notes. -/
def notes (s : TimerScheduler) : LifeStep → List Note
  | .act (.activate n _) => s.activationNotes n
  | .act (.fire _ _) =>
    match s.phase with
    | .firing timer fireTime target =>
      s.activationNotes target ++
        match ((s.mgr.markState timer .active .running).startUnit target).result with
        | .ok _ => [.fired timer fireTime.sec]
        | .error _ => []
    | _ => []
  | .act _ | .restart _ => []

/-- What a run notes. -/
def noted : TimerScheduler → List LifeStep → List Note
  | _, [] => []
  | s, e :: es => s.notes e ++ match s.lifeStep e with
    | some s' => noted s' es
    | none => []

/-- The stamp file can be written. -/
def LifeStep.Saves : LifeStep → Prop
  | .act (.activate _ saved) | .act (.fire _ saved) => saved = true
  | .act _ | .restart _ => True

/-- The second that the stamp file of a timer holds, if it is one. -/
def stampSec (s : TimerScheduler) : Registers := fun n =>
  (s.stamps.get? n).filter fun x => (DateTime.ofSec x).InRange

/-! ## Memory and files agree -/

/-- The files hold what the memory does, and deadlines are dates. -/
structure Agrees (s : TimerScheduler) : Prop where
  past : Past s
  cached : ∀ n d, s.lastFires.get? n = some d → s.stamps.get? n = some d.sec ∧ d.InRange
  waiting : ∀ d n, s.phase = .waiting (some (d, n)) → DateTime.minSec ≤ d.sec
  firing : ∀ n d u, s.phase = .firing n d u → DateTime.minSec ≤ d.sec

theorem readLastFire_sec (s : TimerScheduler) (n : UnitName) :
    (s.readLastFire n).map DateTime.sec = s.stampSec n := by
  unfold readLastFire stampSec
  cases s.stamps.get? n with
  | none => rfl
  | some x =>
    dsimp only
    by_cases hx : (DateTime.ofSec x).InRange
    · rw [if_pos hx, Option.filter_some, if_pos (decide_eq_true hx), Option.map_some,
        DateTime.sec_ofSec]
    · rw [if_neg hx, Option.filter_some, if_neg (by simpa using hx), Option.map_none]

theorem Agrees.lastFire_sec (h : Agrees s) (n : UnitName) :
    (s.lastFire n).map DateTime.sec = s.stampSec n := by
  unfold lastFire
  cases hd : s.lastFires.get? n with
  | none => exact readLastFire_sec s n
  | some d =>
    obtain ⟨hstamp, hrange⟩ := h.cached n d hd
    have hsec : (DateTime.ofSec d.sec).InRange := by
      unfold DateTime.InRange
      rw [DateTime.sec_ofSec]
      exact hrange
    unfold stampSec
    rw [hstamp, Option.filter_some, if_pos (decide_eq_true hsec)]
    rfl

/-- A date that is written is what the file holds then. -/
theorem stampSec_insert {stamps : IndexMap UnitName Int} {x : DateTime} (hx : x.InRange)
    (h : s'.stamps = stamps.insert n x.sec) (hs : s.stamps = stamps) :
    s'.stampSec = Function.update s.stampSec n (some x.sec) := by
  have hsec : (DateTime.ofSec x.sec).InRange := by
    unfold DateTime.InRange
    rw [DateTime.sec_ofSec]
    exact hx
  funext m
  unfold stampSec
  rw [h, hs]
  by_cases hm : m = n
  · subst hm
    rw [Function.update_self, IndexMap.get?_insert_self, Option.filter_some,
      if_pos (decide_eq_true hsec)]
  · rw [Function.update_of_ne hm, IndexMap.get?_insert_ne hm]

/-! ## Starting and firing -/

theorem startUnit_units (m : Manager) (n : UnitName) : (m.startUnit n).mgr.units = m.units := by
  simp only [Manager.startUnit, Manager.spawnServiceStart]
  split
  · split <;> rfl
  · rfl

theorem timerUnit_congr (h : s'.mgr.units = s.mgr.units) : s'.timerUnit n = s.timerUnit n := by
  unfold timerUnit
  rw [h]

/-- The activation of a timer writes its file if there is none. -/
theorem stamps_startUnit (s : TimerScheduler) (n : UnitName) : (s.startUnit n true).stamps =
    if (n.kind = .timer ∧ (s.timerUnit n).any TimerUnit.persistent = true) ∧
      s.readLastFire n = none then s.stamps.insert n s.clock.sec else s.stamps := by
  have hunit : ({ s with mgr := (s.mgr.startUnit n).mgr } : TimerScheduler).timerUnit n =
      s.timerUnit n := timerUnit_congr (startUnit_units s.mgr n)
  have hread : ({ s with mgr := (s.mgr.startUnit n).mgr } : TimerScheduler).readLastFire n =
      s.readLastFire n := rfl
  unfold startUnit stampIfNeeded
  dsimp only
  rw [hunit, hread]
  by_cases hk : n.kind = .timer
  · rw [if_pos hk]
    cases ht : s.timerUnit n with
    | none => simp
    | some t =>
      by_cases hp : t.persistent = true ∧ s.readLastFire n = none
      · simp [hp, hk, writeLastFire]
      · have hno : ¬ ((n.kind = .timer ∧ (some t).any TimerUnit.persistent = true) ∧
            s.readLastFire n = none) := fun h => hp ⟨h.1.2, h.2⟩
        rw [if_neg hno]
        dsimp only
        rw [if_neg hp]
  · simp [hk]

theorem stampSec_eq_none : s.stampSec n = none ↔ s.readLastFire n = none := by
  rw [← readLastFire_sec, Option.map_eq_none_iff]

/-- An activation is noted in the file. -/
theorem stampSec_startUnit (hrange : s.clock.InRange) (n : UnitName) :
    (s.startUnit n true).stampSec = (s.activationNotes n).foldl Note.apply s.stampSec := by
  have hstamps := stamps_startUnit s n
  unfold activationNotes
  by_cases hk : n.kind = .timer ∧ (s.timerUnit n).any TimerUnit.persistent = true
  · rw [if_pos hk]
    show _ = Function.update s.stampSec n ((s.stampSec n).or (some s.clock.sec))
    by_cases hnone : s.readLastFire n = none
    · rw [if_pos ⟨hk, hnone⟩] at hstamps
      rw [stampSec_insert hrange hstamps rfl, stampSec_eq_none.mpr hnone, Option.none_or]
    · -- the file is there and stays
      rw [if_neg fun h => hnone h.2] at hstamps
      obtain ⟨x, hx⟩ := Option.ne_none_iff_exists'.mp (mt stampSec_eq_none.mp hnone)
      rw [hx, Option.some_or, ← hx, Function.update_eq_self]
      unfold stampSec
      rw [hstamps]
  · rw [if_neg hk]
    rw [if_neg fun h => hk h.1] at hstamps
    show _ = s.stampSec
    unfold stampSec
    rw [hstamps]

/-- What is in memory is in a file, and no activation overwrites it. -/
theorem Agrees.cached_startUnit (h : Agrees s) (m : UnitName) :
    ∀ n d, (s.startUnit m true).lastFires.get? n = some d →
      (s.startUnit m true).stamps.get? n = some d.sec ∧ d.InRange := by
  intro n d hd
  rw [(sameFires_startUnit s m true).lastFires] at hd
  obtain ⟨hstamp, hrange⟩ := h.cached n d hd
  refine ⟨?_, hrange⟩
  rw [stamps_startUnit]
  split
  next hwrites =>
    -- then the timer has no last fire
    have hne : n ≠ m := by
      rintro rfl
      have hsec := h.lastFire_sec n
      rw [stampSec_eq_none.mpr hwrites.2] at hsec
      unfold lastFire at hsec
      rw [hd] at hsec
      exact absurd hsec (by simp)
    rw [IndexMap.get?_insert_ne hne, hstamp]
  next => exact hstamp

/-- The request to start the linked unit, as a fire makes it. -/
def requested (s : TimerScheduler) (timer target : UnitName) : TimerScheduler :=
  { s with mgr := s.mgr.markState timer .active .running }.startUnit target true

theorem requested_stampSec (hrange : s.clock.InRange) (timer target : UnitName) :
    (s.requested timer target).stampSec =
      (s.activationNotes target).foldl Note.apply s.stampSec := by
  unfold requested
  rw [stampSec_startUnit (s := { s with mgr := s.mgr.markState timer .active .running }) hrange]
  rfl

/-- A fire notes its deadline if the linked unit could be started. -/
theorem fire_cases (s : TimerScheduler) (timer target : UnitName) (x : DateTime) :
    (∃ r, ((s.mgr.markState timer .active .running).startUnit target).result = .ok r ∧
      (s.fire timer x target true).lastFires = s.lastFires.insert timer x ∧
      (s.fire timer x target true).stamps = (s.requested timer target).stamps.insert timer x.sec) ∨
    (∃ e, ((s.mgr.markState timer .active .running).startUnit target).result = .error e ∧
      (s.fire timer x target true).lastFires = s.lastFires ∧
      (s.fire timer x target true).stamps = (s.requested timer target).stamps) := by
  have hwatch : ∀ v : TimerScheduler, (v.watch timer target).stamps = v.stamps ∧
      (v.watch timer target).lastFires = v.lastFires := by
    intro v
    unfold watch
    split <;> exact ⟨rfl, rfl⟩
  have hfires : (s.requested timer target).lastFires = s.lastFires :=
    (sameFires_startUnit _ _ _).lastFires
  obtain ⟨hstamps, hlast⟩ := hwatch (s.requested timer target)
  unfold TimerScheduler.fire
  dsimp only
  cases hr : ((s.mgr.markState timer .active .running).startUnit target).result with
  | ok r =>
    refine Or.inl ⟨r, rfl, ?_, ?_⟩
    · show ((s.requested timer target).watch timer target).lastFires.insert timer x = _
      rw [hlast, hfires]
    · show ((s.requested timer target).watch timer target).stamps.insert timer x.sec = _
      rw [hstamps]
  | error e =>
    refine Or.inr ⟨e, rfl, ?_, ?_⟩
    · show ((s.requested timer target).watch timer target).lastFires = _
      rw [hlast, hfires]
    · exact hstamps

/-! ## Steps -/

theorem sec_le_sec {x y : DateTime} (h : x.nanos ≤ y.nanos) : x.sec ≤ y.sec := by
  unfold DateTime.sec
  omega

/-- A deadline is a date, since the clock was one when it was computed. -/
theorem Agrees.deadline_step {a : Action} (h : Agrees s) (hrange : s.clock.InRange)
    (hs : s.step a = some s') :
    (∀ d n, s'.phase = .waiting (some (d, n)) → DateTime.minSec ≤ d.sec) ∧
      ∀ n d u, s'.phase = .firing n d u → DateTime.minSec ≤ d.sec := by
  have hstep := phase_step hs
  generalize s'.phase = p at hstep
  cases hstep with
  | same => exact ⟨h.waiting, h.firing⟩
  | computed ha hready next hnext =>
    refine ⟨fun d n hd => ?_, by simp⟩
    obtain rfl := Phase.waiting.inj hd
    obtain ⟨x, -, -, hoverall⟩ := computeNext_result hnext
    exact Int.le_trans hrange.1 (sec_le_sec (nextOverall_cause hoverall).le)
  | woken hwait hd u =>
    refine ⟨by simp, fun n d u' hd' => ?_⟩
    obtain ⟨-, rfl, -⟩ := Phase.firing.inj hd'
    exact h.waiting _ _ hwait
  | ready | stopped | flipping => exact ⟨by simp, by simp⟩

/-- A step other than an activation or a fire leaves memory and files as they are. -/
theorem unnoted_step {a : Action} (hs : s.step a = some s')
    (hactivate : ∀ n saved, a ≠ .activate n saved) (hfire : ∀ n saved, a ≠ .fire n saved)
    (n : UnitName) : SameRecord n s s' := by
  refine sameRecord_step hs ?_ (hfire n)
  unfold Restarts
  split
  next m saved => exact absurd rfl (hactivate m saved)
  next m saved => exact absurd rfl (hfire m saved)
  next => exact id

theorem Agrees.of_same {a : Action} (h : Agrees s) (hrange : s.clock.InRange)
    (hs : s.step a = some s') (hsame : ∀ n, SameRecord n s s') : Agrees s' := by
  obtain ⟨hwaiting, hfiring⟩ := h.deadline_step hrange hs
  refine ⟨past_step h.past hs, fun n d hd => ?_, hwaiting, hfiring⟩
  rw [(hsame n).lastFires] at hd
  rw [(hsame n).stamps]
  exact h.cached n d hd

theorem stampSec_of_same (hsame : ∀ n, SameRecord n s s') : s'.stampSec = s.stampSec := by
  funext n
  unfold stampSec
  rw [(hsame n).stamps]

/-- A fire at its deadline. -/
theorem Agrees.fire (h : Agrees s) (hrange : s.clock.InRange) {timer target : UnitName}
    {x : DateTime} (hphase : s.phase = .firing timer x target) :
    (∀ n d, (s.fire timer x target true).lastFires.get? n = some d →
      (s.fire timer x target true).stamps.get? n = some d.sec ∧ d.InRange) ∧
    (s.fire timer x target true).stampSec =
      (s.notes (.act (.fire timer true))).foldl Note.apply s.stampSec := by
  have hx : x.InRange :=
    ⟨h.firing _ _ _ hphase, Int.lt_of_le_of_lt (sec_le_sec (h.past.firing _ _ _ hphase)) hrange.2⟩
  have hmarked : Agrees { s with mgr := s.mgr.markState timer .active .running } :=
    ⟨h.past.manager _, h.cached, h.waiting, h.firing⟩
  have hcached := hmarked.cached_startUnit target
  have hfires : (s.requested timer target).lastFires = s.lastFires :=
    (sameFires_startUnit _ _ _).lastFires
  have hnotes : s.notes (.act (.fire timer true)) = s.activationNotes target ++
      match ((s.mgr.markState timer .active .running).startUnit target).result with
      | .ok _ => [.fired timer x.sec]
      | .error _ => [] := by
    simp only [notes, hphase]
  rw [hnotes, List.foldl_append, ← requested_stampSec hrange timer target]
  obtain ⟨r, hr, hlast, hstamps⟩ | ⟨e, hr, hlast, hstamps⟩ := fire_cases s timer target x
  · rw [hr, hlast, hstamps]
    refine ⟨fun n d hd => ?_, stampSec_insert hx hstamps rfl⟩
    by_cases hn : n = timer
    · subst hn
      rw [IndexMap.get?_insert_self] at hd ⊢
      obtain rfl := Option.some.inj hd
      exact ⟨rfl, hx⟩
    · rw [IndexMap.get?_insert_ne hn] at hd ⊢
      exact hcached n d (hfires.symm ▸ hd)
  · rw [hr, hlast, hstamps]
    refine ⟨fun n d hd => hcached n d (hfires.symm ▸ hd), ?_⟩
    show (s.fire timer x target true).stampSec = (s.requested timer target).stampSec
    unfold stampSec
    rw [hstamps]

/-- **What a step does to memory and files is what it notes.** -/
theorem agrees_step {e : LifeStep} (h : Agrees s) (hrange : s.clock.InRange) (hsave : e.Saves)
    (hs : s.lifeStep e = some s') :
    Agrees s' ∧ s'.stampSec = (s.notes e).foldl Note.apply s.stampSec := by
  cases e with
  | restart m =>
    obtain rfl := Option.some.inj hs
    refine ⟨⟨⟨Int.le_refl _, ?_, h.past.stamps, ?_⟩, ?_, ?_, ?_⟩, rfl⟩
    all_goals simp [restarted]
  | act a =>
    replace hs : s.step a = some s' := hs
    cases a with
    | activate n saved =>
      obtain rfl : saved = true := hsave
      obtain ⟨hwaiting, hfiring⟩ := h.deadline_step hrange hs
      have hpast := past_step h.past hs
      obtain rfl := Option.some.inj hs
      exact ⟨⟨hpast, h.cached_startUnit n, hwaiting, hfiring⟩, stampSec_startUnit hrange n⟩
    | fire n saved =>
      obtain rfl : saved = true := hsave
      obtain ⟨hwaiting, hfiring⟩ := h.deadline_step hrange hs
      have hpast := past_step h.past hs
      simp only [step] at hs
      split at hs
      next timer x target hphase =>
        split at hs
        next hn =>
          subst hn
          obtain ⟨hcached, hsec⟩ := h.fire hrange hphase
          obtain rfl := Option.some.inj hs
          exact ⟨⟨hpast, hcached, hwaiting, hfiring⟩, hsec⟩
        next => exact absurd hs (by simp)
      next => exact absurd hs (by simp)
    | pass | manager | compute | wake | refresh | shutdown | event | flip =>
      have hsame := unnoted_step hs (by simp) (by simp)
      exact ⟨h.of_same hrange hs hsame, stampSec_of_same hsame⟩

/-! ## Runs -/

/-- The step is taken while the clock shows a date, and the stamp file can be written. -/
def StampOk (s : TimerScheduler) (e : LifeStep) : Prop := s.clock.InRange ∧ e.Saves

theorem agrees_run : ∀ {es : List LifeStep} {s s' : TimerScheduler}, Agrees s →
    Along lifeStep StampOk s es → runs lifeStep s es = some s' →
    Agrees s' ∧ s'.stampSec = (noted s es).foldl Note.apply s.stampSec
  | [], _, _, h, _, hrun => by
    obtain rfl := Option.some.inj hrun
    exact ⟨h, rfl⟩
  | e :: es, s, s', h, hok, hrun => by
    obtain ⟨s₁, hs, hrun⟩ := runs_cons.mp hrun
    obtain ⟨h₁, hsec₁⟩ := agrees_step h hok.1.1 hok.1.2 hs
    obtain ⟨h', hsec⟩ := agrees_run h₁ (hok.2 s₁ hs) hrun
    refine ⟨h', ?_⟩
    rw [hsec, hsec₁, noted, hs, List.foldl_append]

/-- **Restarts do not touch the last fire of a timer.** After any run over any number of
lives of the daemon, what the scheduler takes for the last fire is, to the second, the last
fire of the run, or else what the stamp file held before, or else the first activation; and
it is not in the future. -/
theorem lastFire_run {es : List LifeStep} (hinit : Initial s) (hstamps : StampsPast s)
    (hok : Along lifeStep StampOk s es) (hrun : runs lifeStep s es = some s') (n : UnitName) :
    (s'.lastFire n).map DateTime.sec =
        (IndexMap.last ((noted s es).filterMap Note.fire?) n).or
          (((s.lastFire n).map DateTime.sec).or
            (IndexMap.first ((noted s es).filterMap Note.since?) n)) ∧
      ∀ x, s'.lastFire n = some x → x.nanos ≤ s'.clock.nanos := by
  have hagrees : Agrees s := by
    refine ⟨hinit.past hstamps, fun n d hd => ?_, fun d n hd => ?_, fun n d u hd => ?_⟩
    · rw [hinit.lastFires] at hd
      exact absurd hd (by simp)
    · rw [hinit.phase] at hd
      exact absurd hd (by simp)
    · rw [hinit.phase] at hd
      exact absurd hd (by simp)
  obtain ⟨h', hsec⟩ := agrees_run hagrees hok hrun
  refine ⟨?_, fun x hx => h'.past.lastFire hx⟩
  rw [h'.lastFire_sec, hsec, Note.foldl_apply, hagrees.lastFire_sec]

/-- A persistent timer is started, and half a second later the daemon comes up again. -/
def stampedLife : List LifeStep :=
  [.act (.activate timerA true), .act (.pass 500000000), .restart beforeTheHour.mgr]

theorem lastFire_run_stamped : ∃ s', runs lifeStep beforeTheHour stampedLife = some s' ∧
    (s'.lastFire timerA).map DateTime.sec = some 1799999999 ∧
    ∀ x, s'.lastFire timerA = some x → x.nanos ≤ s'.clock.nanos := by
  have hrange : ∀ {v : TimerScheduler}, v.clock.sec = 1799999999 → v.clock.InRange := by
    intro v hv
    unfold DateTime.InRange
    rw [hv]
    decide +kernel
  have hok : Along lifeStep StampOk beforeTheHour stampedLife := by
    refine ⟨⟨hrange rfl, rfl⟩, fun v₁ h₁ => ?_⟩
    obtain rfl := Option.some.inj h₁
    refine ⟨⟨hrange rfl, trivial⟩, fun v₂ h₂ => ?_⟩
    obtain rfl := Option.some.inj h₂
    exact ⟨⟨hrange rfl, trivial⟩, fun _ _ => trivial⟩
  have hstamps : StampsPast beforeTheHour := fun _ _ h =>
    absurd h (by simp [beforeTheHour, onTheHour])
  have hrun : runs lifeStep beforeTheHour stampedLife =
      some ((runs lifeStep beforeTheHour stampedLife).getD beforeTheHour) := rfl
  obtain ⟨hsec, hpast⟩ := lastFire_run ⟨rfl, rfl, rfl, rfl⟩ hstamps hok hrun timerA
  exact ⟨_, hrun, hsec.trans rfl, hpast⟩

end TimerScheduler

end Systeml.Runtime
