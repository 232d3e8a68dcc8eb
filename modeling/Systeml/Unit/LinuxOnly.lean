import Systeml.Unit.Parse

/-!
# Linux-only directives

A directive that is only known on Linux is reported, and kept as it is written or
recorded in a field of its own. One directive more in a section changes what its action
names and nothing else (`list_grown`, `val_grown`), so that a Linux-only directive does
not move a unit (`linuxOnly_unmoved_iff`), unless its value is refused: two directives
of `[Socket]` take a yes or a no only.
-/

namespace Systeml.Unit

open Systeml.Lib

/-! ## One directive more in a section -/

namespace Reader

variable {S : Shape} {R : Reader S} {ini ini' : Ini} {key value path : Str}

/-- The directives of the section, without their line numbers. -/
def pairs (R : Reader S) (ini : Ini) : List (Str × Str) := (R.entries ini).map Entry.pair

/-- There is a directive more in the section, in some place. -/
def Grown (R : Reader S) (key value : Str) (ini ini' : Ini) : Prop :=
  ∃ before after, R.pairs ini = before ++ after ∧ R.pairs ini' = before ++ (key, value) :: after

theorem forall_accepts_iff :
    (∀ e ∈ R.entries ini, R.Accepts e) ↔ ∀ p ∈ R.pairs ini, (R.action p.1).Accepts p.2 := by
  unfold pairs
  rw [List.forall_mem_map]
  rfl

/-- It has to be accepted as well. -/
theorem accepts_grown (h : R.Grown key value ini ini') :
    (∀ e ∈ R.entries ini', R.Accepts e) ↔
      (∀ e ∈ R.entries ini, R.Accepts e) ∧ (R.action key).Accepts value := by
  obtain ⟨before, after, hold, hnew⟩ := h
  rw [forall_accepts_iff, forall_accepts_iff, hold, hnew]
  simp only [List.forall_mem_append, List.forall_mem_cons]
  constructor
  · intro h
    obtain ⟨hbefore, hown, hafter⟩ := h
    exact ⟨⟨hbefore, hafter⟩, hown⟩
  · intro h
    obtain ⟨⟨hbefore, hafter⟩, hown⟩ := h
    exact ⟨hbefore, hown, hafter⟩

/-- A field that collects, and that the directive does not add to. -/
theorem list_grown {r r' : S.Rec} (h : R.Grown key value ini ini') (hr : R.read path ini = .ok r)
    (hr' : R.read path ini' = .ok r') {l : S.ListField} (hl : (R.action key).target ≠ some l) :
    r'.list l = r.list l := by
  obtain ⟨before, after, hold, hnew⟩ := h
  have hpairs : ∀ x : Ini, ((R.entries x).flatMap fun e => (R.action e.key).given e.value l) =
      (R.pairs x).flatMap fun p => (R.action p.1).given p.2 l := by
    intro x
    unfold pairs
    rw [List.flatMap_map]
    rfl
  rw [read_list hr, read_list hr', hpairs, hpairs, hold, hnew, List.flatMap_append,
    List.flatMap_append, List.flatMap_cons, Action.given_of_target hl, List.nil_append]

/-- A field with one value, which the directive does not set. -/
theorem val_grown {r r' : S.Rec} (h : R.Grown key value ini ini') (hr : R.read path ini = .ok r)
    (hr' : R.read path ini' = .ok r') {f : S.Field} (hf : f ∉ (R.action key).fields) :
    r'.val f = r.val f := by
  obtain ⟨before, after, hold, hnew⟩ := h
  unfold pairs at hold hnew
  have hlast : R.lastValue f (R.entries ini') = R.lastValue f (R.entries ini) := by
    rw [lastValue_pairs, lastValue_pairs, hold, hnew]
    simp [List.findSome?_append, Action.sets_of_fields hf]
  rw [read_val hr, read_val hr', hlast]

end Reader

/-! ## Warnings -/

/-- What a warning says, wherever the directive stands. -/
def ParseWarning.said (w : ParseWarning) : WarningKind × Str := (w.kind, w.message)

/-- What a warning about a directive says. -/
def reported (sec : String) (key : Str) (kind : WarningKind) : WarningKind × Str :=
  (ParseWarning.ofKind [] 0 sec key kind).said

theorem said_ofKind (path : Str) (line : Nat) (sec : String) (key : Str) (kind : WarningKind) :
    (ParseWarning.ofKind path line sec key kind).said = reported sec key kind := by
  cases kind <;> rfl

/-- There is a warning more, in some place. -/
def OneMore (w : WarningKind × Str) (ws ws' : List ParseWarning) : Prop :=
  ∃ before after, ws.map ParseWarning.said = before ++ after ∧
    ws'.map ParseWarning.said = before ++ w :: after

namespace OneMore

variable {w : WarningKind × Str} {ws ws' vs vs' : List ParseWarning}

theorem append_right (h : OneMore w ws ws')
    (hvs : vs'.map ParseWarning.said = vs.map ParseWarning.said) :
    OneMore w (ws ++ vs) (ws' ++ vs') := by
  obtain ⟨before, after, hold, hnew⟩ := h
  refine ⟨before, after ++ vs.map ParseWarning.said, ?_, ?_⟩
  · rw [List.map_append, hold, List.append_assoc]
  · rw [List.map_append, hnew, hvs, List.append_assoc, List.cons_append]

theorem append_left (h : OneMore w ws ws')
    (hvs : vs'.map ParseWarning.said = vs.map ParseWarning.said) :
    OneMore w (vs ++ ws) (vs' ++ ws') := by
  obtain ⟨before, after, hold, hnew⟩ := h
  refine ⟨vs.map ParseWarning.said ++ before, after, ?_, ?_⟩
  · rw [List.map_append, hold, List.append_assoc]
  · rw [List.map_append, hnew, hvs, List.append_assoc]

end OneMore

namespace Reader

variable {S : Shape} {R : Reader S} {ini ini' : Ini} {key value path : Str}

theorem said_warnings (path : Str) (ini : Ini) : (R.warnings path ini).map ParseWarning.said =
    (R.pairs ini).filterMap fun p => (R.warning p.1).map (reported (R.sec.getD "") p.1) := by
  unfold warnings pairs
  rw [List.map_filterMap, List.filterMap_map]
  congr 1
  funext e
  have hsaid : ParseWarning.said ∘ ParseWarning.ofKind path e.line (R.sec.getD "") e.key =
      reported (R.sec.getD "") e.key := funext fun kind => said_ofKind ..
  show ((R.warning e.key).map _).map ParseWarning.said = _
  rw [Option.map_map, hsaid]
  rfl

theorem warnings_grown {kind : WarningKind} (path : Str) (h : R.Grown key value ini ini')
    (hw : R.warning key = some kind) : OneMore (reported (R.sec.getD "") key kind)
      (R.warnings path ini) (R.warnings path ini') := by
  obtain ⟨before, after, hold, hnew⟩ := h
  let say : Str × Str → Option (WarningKind × Str) := fun p =>
    (R.warning p.1).map (reported (R.sec.getD "") p.1)
  have hsay : say (key, value) = some (reported (R.sec.getD "") key kind) := by
    show (R.warning key).map _ = _
    rw [hw]
    rfl
  refine ⟨before.filterMap say, after.filterMap say, ?_, ?_⟩
  · rw [said_warnings, hold, List.filterMap_append]
  · rw [said_warnings, hnew, List.filterMap_append, List.filterMap_cons_some hsay]

theorem warnings_same (h : R.pairs ini' = R.pairs ini) :
    (R.warnings path ini').map ParseWarning.said = (R.warnings path ini).map ParseWarning.said := by
  rw [said_warnings, said_warnings, h]

end Reader

/-! ## One directive more in a file -/

/-- A directive more in a section of the file, in some place. -/
structure Inserted (sec : String) (key value : Str) (ini ini' : Ini) : Prop where
  here : ∃ before after, (ini.entriesOf sec.toList).map Entry.pair = before ++ after ∧
    (ini'.entriesOf sec.toList).map Entry.pair = before ++ (key, value) :: after
  elsewhere : ∀ name ≠ sec.toList,
    (ini'.entriesOf name).map Entry.pair = (ini.entriesOf name).map Entry.pair

namespace Inserted

variable {S : Shape} {R : Reader S} {sec : String} {ini ini' : Ini} {key value : Str}

theorem grown (h : Inserted sec key value ini ini') (hR : R.sec = some sec) :
    R.Grown key value ini ini' := by
  unfold Reader.Grown Reader.pairs Reader.entries
  rw [hR]
  exact h.here

theorem pairs_same (h : Inserted sec key value ini ini') (hR : R.sec ≠ some sec) :
    R.pairs ini' = R.pairs ini := by
  unfold Reader.pairs Reader.entries
  cases hsec : R.sec with
  | none => rfl
  | some other =>
    rw [hsec] at hR
    exact h.elsewhere other.toList fun he => hR (congrArg some (String.toList_inj.mp he))

end Inserted

/-- The field of `[Socket]` that records a Linux-only directive. -/
def SocketField.records : SocketField → Option String
  | .passCredentials => some "PassCredentials"
  | .passSecurity => some "PassSecurity"
  | .bindToDevice => some "BindToDevice"
  | _ => none

/-- The field that merely records a directive. -/
def Records (key : Str) : (k : UnitKind) → (s : Section) → (s.shape k).Field → Prop
  | .socket, .own, f => (SocketField.records f).map String.toList = some key
  | _, _, _ => False

/-- The lists of directives that are kept as they are written. -/
def Passthrough : (k : UnitKind) → (s : Section) → (s.shape k).ListField → Prop
  | .service, .own, l => l = ServiceList.passthrough
  | .socket, .own, l => l = SocketList.passthrough
  | _, _, _ => False

/-- Two units are the same, but for the file they are read from, the directives that are
kept as they are written and the field that records `key`. -/
structure SameBut (k : UnitKind) (key : Str) (u u' : TypedUnit) : Prop where
  name : u'.name = u.name
  paths : u'.fragmentPaths = u.fragmentPaths
  fields : ∃ v v' : (s : Section) → (s.shape k).Rec,
    u.fields = (v .unit, v .install, ⟨k, v .own⟩) ∧
    u'.fields = (v' .unit, v' .install, ⟨k, v' .own⟩) ∧
    ∀ s, (∀ f, ¬ Records key k s f → (v' s).val f = (v s).val f) ∧
      ∀ l, ¬ Passthrough k s l → (v' s).list l = (v s).list l

/-- What a Linux-only directive more is to make of a unit: it is read if it was read
before, the same, and with one warning more. -/
def Unmoved (k : UnitKind) (sec : String) (key : Str) :
    Except UnitError ParsedUnit → Except UnitError ParsedUnit → Prop
  | .ok r, .ok r' => SameBut k key r.unit r'.unit ∧
      OneMore (reported sec key .linuxOnly) r.warnings r'.warnings
  | .error _, .error _ => True
  | .ok _, .error _ | .error _, .ok _ => False

/-- Two directives of `[Socket]` take a yes or a no only. -/
def Tolerates (sec : String) (key value : Str) : Prop :=
  sec = "Socket" → key ∈ ["PassCredentials", "PassSecurity"].map String.toList →
    (parseBool value).isSome = true

/-! ## The Linux-only directives -/

variable {P : LeafParsers} {k : UnitKind} {s : Section} {sec : String} {key value : Str}

/-- The Linux-only directives are in two sections. -/
theorem linuxOnly_cases (h : (s.reader P k).warning key = some .linuxOnly) :
    (k = .service ∧ s = .own ∧ key ∈ linuxOnlyKeys.map String.toList) ∨
      (k = .socket ∧ s = .own ∧
        key ∈ ["PassCredentials", "PassSecurity", "BindToDevice"].map String.toList) := by
  cases s with
  | unit =>
    simp only [Section.reader, unitReader] at h
    split at h <;> simp at h
  | install =>
    simp only [Section.reader, installReader] at h
    split at h <;> simp at h
  | own =>
    cases k with
    | service =>
      simp only [Section.reader, readerOf, serviceReader] at h
      split at h
      next hkey => exact .inl ⟨rfl, rfl, hkey⟩
      next => split at h <;> (try split at h) <;> simp at h
    | socket =>
      simp only [Section.reader, readerOf, socketReader] at h
      split at h
      next hkey => exact .inr ⟨rfl, rfl, hkey⟩
      next => split at h <;> simp at h
    | timer =>
      simp only [Section.reader, readerOf, timerReader] at h
      split at h <;> simp at h
    | path =>
      simp only [Section.reader, readerOf, pathReader] at h
      split at h <;> simp at h
    | target | mount | automount | swap | device | slice | scope =>
      simp [Section.reader, readerOf, emptyReader] at h

/-- A Linux-only directive of `[Service]` is kept as it is written. -/
theorem serviceAction_linuxOnly (h : key ∈ linuxOnlyKeys.map String.toList) :
    serviceAction P key = servicePassthrough key := if_pos h

theorem socketAction_of_row {row : String} {a : socketShape.Act}
    (h : tableAction (socketTable P) row.toList = some a) : socketAction P row.toList = a := by
  unfold socketAction
  rw [h]
  rfl

/-- One of `[Socket]` sets the field that records it. -/
theorem socketAction_linuxOnly
    (h : key ∈ ["PassCredentials", "PassSecurity", "BindToDevice"].map String.toList) :
    ∃ f read, socketAction P key = .set f read ∧ f.records.map String.toList = some key ∧
      ∀ value, (∃ x, read value = .ok x) ↔ Tolerates "Socket" key value := by
  have hbool : ∀ value, (∃ x, readBool boolReason value = .ok x) ↔
      (parseBool value).isSome = true := by
    intro value
    unfold readBool orBad
    cases parseBool value <;> simp
  rw [List.mem_map] at h
  obtain ⟨name, hname, rfl⟩ := h
  simp only [List.mem_cons, List.not_mem_nil, or_false] at hname
  rcases hname with rfl | rfl | rfl
  · refine ⟨.passCredentials, readBool boolReason, socketAction_of_row ?_, rfl, fun value => ?_⟩
    · rw [tableAction_toList]
      simp [socketTable]
    rw [hbool]
    exact ⟨fun hvalue _ _ => hvalue, fun htol => htol rfl (by decide)⟩
  · refine ⟨.passSecurity, readBool boolReason, socketAction_of_row ?_, rfl, fun value => ?_⟩
    · rw [tableAction_toList]
      simp [socketTable]
    rw [hbool]
    exact ⟨fun hvalue _ _ => hvalue, fun htol => htol rfl (by decide)⟩
  · refine ⟨.bindToDevice, readText, socketAction_of_row ?_, rfl, fun value => ?_⟩
    · rw [tableAction_toList]
      simp [socketTable]
    exact ⟨fun _ _ hkey => absurd hkey (by decide), fun _ => ⟨some value, rfl⟩⟩

/-- What a Linux-only directive does. -/
structure Recorded (P : LeafParsers) (k : UnitKind) (s : Section) (sec : String) (key : Str) :
    Prop where
  fields : ∀ f ∈ ((s.reader P k).action key).fields, Records key k s f
  target : ∀ l, ((s.reader P k).action key).target = some l → Passthrough k s l
  accepts : ∀ value, ((s.reader P k).action key).Accepts value ↔ Tolerates sec key value

theorem linuxOnly_recorded (hsec : (s.reader P k).sec = some sec)
    (h : (s.reader P k).warning key = some .linuxOnly) : Recorded P k s sec key := by
  rcases linuxOnly_cases h with ⟨rfl, rfl, hkey⟩ | ⟨rfl, rfl, hkey⟩
  · obtain rfl : "Service" = sec := Option.some.inj hsec
    have haction : (Section.own.reader P .service).action key = servicePassthrough key :=
      serviceAction_linuxOnly hkey
    refine ⟨fun f hf => ?_, fun l hl => ?_, fun value => ?_⟩
    · rw [haction] at hf
      exact absurd hf List.not_mem_nil
    · rw [haction] at hl
      exact (Option.some.inj hl).symm
    · rw [haction]
      exact ⟨fun _ hsocket => absurd hsocket (by decide), fun _ => ⟨_, rfl⟩⟩
  · obtain rfl : "Socket" = sec := Option.some.inj hsec
    obtain ⟨f, read, hset, hrecords, haccepts⟩ := socketAction_linuxOnly (P := P) hkey
    have haction : (Section.own.reader P .socket).action key = .set f read := hset
    refine ⟨fun g hg => ?_, fun l hl => ?_, fun value => ?_⟩
    · rw [haction] at hg
      rw [List.mem_singleton.mp hg]
      exact hrecords
    · rw [haction] at hl
      exact absurd hl (by simp [Action.target, Action.set])
    · rw [haction, ← haccepts]
      exact ⟨fun ha => ha _ List.mem_cons_self, fun ha t ht => List.mem_singleton.mp ht ▸ ha⟩

/-! ## The unit -/

variable {name : UnitName} {path : Str} {ini ini' : Ini}

/-- The sections of a unit have names of their own. -/
theorem sec_injective {s' : Section} (h : (s.reader P k).sec = some sec)
    (h' : (s'.reader P k).sec = some sec) : s' = s := by
  rw [← h] at h'
  cases s <;> cases s' <;> cases k <;> first
    | rfl
    | exact absurd h' (by simp [Section.reader, unitReader, installReader, readerOf, serviceReader,
        socketReader, timerReader, pathReader, emptyReader])

theorem accepted_iff_sections : Accepted P k ini ↔
    ∀ s : Section, ∀ e ∈ (s.reader P k).entries ini, (s.reader P k).Accepts e := by
  constructor
  · intro h s
    cases s with
    | unit => exact h.1
    | install => exact h.2.1
    | own => exact h.2.2
  · intro h
    exact ⟨h .unit, h .install, h .own⟩

/-- Its value has to be accepted as well. -/
theorem accepted_inserted (hsec : (s.reader P k).sec = some sec)
    (hins : Inserted sec key value ini ini') : Accepted P k ini' ↔
      Accepted P k ini ∧ ((s.reader P k).action key).Accepts value := by
  have hgrown := Reader.accepts_grown (hins.grown hsec)
  have hother : ∀ t : Section, t ≠ s →
      ((∀ e ∈ (t.reader P k).entries ini', (t.reader P k).Accepts e) ↔
        ∀ e ∈ (t.reader P k).entries ini, (t.reader P k).Accepts e) := by
    intro t ht
    rw [Reader.forall_accepts_iff, Reader.forall_accepts_iff,
      hins.pairs_same fun hsame => ht (sec_injective hsec hsame)]
  rw [accepted_iff_sections, accepted_iff_sections]
  constructor
  · intro h
    refine ⟨fun t => ?_, (hgrown.mp (h s)).2⟩
    by_cases ht : t = s
    · subst ht
      exact (hgrown.mp (h t)).1
    · exact (hother t ht).mp (h t)
  · intro h t
    by_cases ht : t = s
    · subst ht
      exact hgrown.mpr ⟨h.1 t, h.2⟩
    · exact (hother t ht).mpr (h.1 t)

/-- What a unit is read from. -/
theorem parseIniUnit_views {r : ParsedUnit} (h : parseIniUnit P name path ini = .ok r) :
    r.unit.name = name ∧ r.unit.fragmentPaths = [] ∧
    (∃ v : (s : Section) → (s.shape name.kind).Rec,
      (∀ s : Section, (s.reader P name.kind).read path ini = .ok (v s)) ∧
      r.unit.fields = (v .unit, v .install, ⟨name.kind, v .own⟩)) ∧
    r.warnings = (Section.unit.reader P name.kind).warnings path ini ++
      (Section.install.reader P name.kind).warnings path ini ++
        (Section.own.reader P name.kind).warnings path ini := by
  obtain ⟨u, i, k, hu, hi, hk, rfl⟩ := parseIniUnit_eq_ok.mp h
  refine ⟨rfl, rfl, ⟨TypedUnit.view ⟨name, [], u, i, ⟨name.kind, k⟩, ini⟩, fun s => ?_, rfl⟩, rfl⟩
  cases s with
  | unit => exact hu
  | install => exact hi
  | own => exact hk

/-- Where both files are read, the directive does not move the unit. -/
theorem linuxOnly_same (hsec : (s.reader P name.kind).sec = some sec)
    (hwarn : (s.reader P name.kind).warning key = some .linuxOnly)
    (hins : Inserted sec key value ini ini') {r r' : ParsedUnit}
    (h : parseIniUnit P name path ini = .ok r) (h' : parseIniUnit P name path ini' = .ok r') :
    SameBut name.kind key r.unit r'.unit ∧
      OneMore (reported sec key .linuxOnly) r.warnings r'.warnings := by
  obtain ⟨hname, hpaths, ⟨v, hread, hfields⟩, hws⟩ := parseIniUnit_views h
  obtain ⟨hname', hpaths', ⟨v', hread', hfields'⟩, hws'⟩ := parseIniUnit_views h'
  have hrecorded := linuxOnly_recorded hsec hwarn
  have hother : ∀ t : Section, t ≠ s →
      (t.reader P name.kind).pairs ini' = (t.reader P name.kind).pairs ini :=
    fun t ht => hins.pairs_same fun hsame => ht (sec_injective hsec hsame)
  refine ⟨⟨hname'.trans hname.symm, hpaths'.trans hpaths.symm, v, v', hfields, hfields',
    fun t => ?_⟩, ?_⟩
  · by_cases ht : t = s
    · subst ht
      have hgrown := hins.grown hsec
      constructor
      · intro f hf
        exact Reader.val_grown hgrown (hread t) (hread' t) fun hm => hf (hrecorded.fields f hm)
      · intro l hl
        exact Reader.list_grown hgrown (hread t) (hread' t) fun he => hl (hrecorded.target l he)
    · have hsame : v' t = v t := by
        have hcongr := Reader.read_congr_pairs (R := t.reader P name.kind) path path (hother t ht)
        rw [hread t, hread' t] at hcongr
        exact Option.some.inj hcongr
      rw [hsame]
      exact ⟨fun _ _ => rfl, fun _ _ => rfl⟩
  · have hone : OneMore (reported sec key .linuxOnly) ((s.reader P name.kind).warnings path ini)
        ((s.reader P name.kind).warnings path ini') := by
      have hgrown := Reader.warnings_grown path (hins.grown hsec) hwarn
      rw [hsec] at hgrown
      exact hgrown
    have hsame : ∀ t : Section, t ≠ s →
        ((t.reader P name.kind).warnings path ini').map ParseWarning.said =
          ((t.reader P name.kind).warnings path ini).map ParseWarning.said :=
      fun t ht => Reader.warnings_same (hother t ht)
    rw [hws, hws']
    cases s with
    | unit =>
      exact (hone.append_right (hsame .install (by decide))).append_right (hsame .own (by decide))
    | install =>
      exact (hone.append_left (hsame .unit (by decide))).append_right (hsame .own (by decide))
    | own =>
      rw [List.append_assoc, List.append_assoc]
      exact (hone.append_left (hsame .install (by decide))).append_left (hsame .unit (by decide))

/-- The unit stays as it is if the value is one the directive takes, or the file is refused
anyway. -/
theorem unmoved_iff (hsec : (s.reader P name.kind).sec = some sec)
    (hwarn : (s.reader P name.kind).warning key = some .linuxOnly)
    (hins : Inserted sec key value ini ini') (path : Str) :
    Unmoved name.kind sec key (parseIniUnit P name path ini) (parseIniUnit P name path ini') ↔
      (Accepted P name.kind ini → Tolerates sec key value) := by
  have hold : (∃ r, parseIniUnit P name path ini = .ok r) ↔ Accepted P name.kind ini :=
    parseIniUnit_isOk
  have hnew : (∃ r, parseIniUnit P name path ini' = .ok r) ↔ Accepted P name.kind ini' :=
    parseIniUnit_isOk
  rw [accepted_inserted hsec hins, (linuxOnly_recorded hsec hwarn).accepts] at hnew
  cases h : parseIniUnit P name path ini with
  | error e =>
    rw [h] at hold
    have hrefused : ¬ Accepted P name.kind ini := fun ha => by
      obtain ⟨r, hr⟩ := hold.mpr ha
      exact absurd hr (by simp)
    cases h' : parseIniUnit P name path ini' with
    | error e' => exact ⟨fun _ ha => absurd ha hrefused, fun _ => trivial⟩
    | ok r' => exact absurd (hnew.mp ⟨r', h'⟩).1 hrefused
  | ok r =>
    have haccepted : Accepted P name.kind ini := hold.mp ⟨r, h⟩
    cases h' : parseIniUnit P name path ini' with
    | error e' =>
      constructor
      · intro hfalse
        exact False.elim hfalse
      · intro htol
        obtain ⟨r', hr'⟩ := hnew.mpr ⟨haccepted, htol haccepted⟩
        rw [h'] at hr'
        exact absurd hr' (by simp)
    | ok r' =>
      exact ⟨fun _ _ => (hnew.mp ⟨r', h'⟩).2, fun _ => linuxOnly_same hsec hwarn hins h h'⟩

/-- **Linux-only directives**: wherever one is put, the unit stays as it is if the value
is one the directive takes, or the file is refused anyway. -/
theorem linuxOnly_unmoved_iff (hsec : (s.reader P name.kind).sec = some sec)
    (hwarn : (s.reader P name.kind).warning key = some .linuxOnly)
    (hins : Inserted sec key value ini ini') :
    (∀ path, Unmoved name.kind sec key (parseIniUnit P name path ini)
      (parseIniUnit P name path ini') ↔ (Accepted P name.kind ini → Tolerates sec key value)) ∧
    ∀ (p : Option Str) (source source' : Str),
      parseIni (p.getD "<memory>".toList) source = .ok ini →
      parseIni (p.getD "<memory>".toList) source' = .ok ini' →
      (Unmoved name.kind sec key (parseUnitStr P name source p) (parseUnitStr P name source' p) ↔
        (Accepted P name.kind ini → Tolerates sec key value)) := by
  refine ⟨unmoved_iff hsec hwarn hins, fun p source source' hsource hsource' => ?_⟩
  rw [parseUnitStr_eq hsource, parseUnitStr_eq hsource']
  exact unmoved_iff hsec hwarn hins _

/-- A file with a `[Socket]` section only. -/
def socketIni (es : List Entry) : Ini := ⟨⟨[("Socket".toList, es)], by simp⟩⟩

theorem entriesOf_socketIni (es : List Entry) (name : Str) :
    (socketIni es).entriesOf name = if "Socket".toList = name then es else [] := by
  show (getL [("Socket".toList, es)] name).getD [] = _
  by_cases h : "Socket".toList = name
  · rw [getL, if_pos h, if_pos h]
    rfl
  · rw [getL, if_neg h, if_neg h]
    rfl

theorem inserted_socketIni (key value : Str) (line : Nat) {es es' : List Entry}
    (h : es'.map Entry.pair = es.map Entry.pair) :
    Inserted "Socket" key value (socketIni es) (socketIni (⟨key, value, line⟩ :: es')) := by
  refine ⟨⟨[], es.map Entry.pair, ?_, ?_⟩, fun name hname => ?_⟩
  · rw [entriesOf_socketIni, if_pos rfl]
    rfl
  · rw [entriesOf_socketIni, if_pos rfl, ← h]
    rfl
  · rw [entriesOf_socketIni, entriesOf_socketIni, if_neg hname.symm, if_neg hname.symm]

/-- A socket unit. -/
def aSocket : UnitName := ⟨"a".toList, none, .socket⟩

theorem passCredentials_linuxOnly : (Section.own.reader noLeaves aSocket.kind).warning
    "PassCredentials".toList = some .linuxOnly := by
  show (socketReader noLeaves).warning _ = _
  have hkey : "PassCredentials".toList ∈
      ["PassCredentials", "PassSecurity", "BindToDevice"].map String.toList := by decide
  simp only [socketReader]
  rw [if_pos hkey]

/-- `PassCredentials=yes` before another directive. -/
theorem linuxOnly_unmoved_iff_yes : Unmoved .socket "Socket" "PassCredentials".toList
    (parseIniUnit noLeaves aSocket [] (socketIni [⟨"Backlog".toList, "5".toList, 2⟩]))
    (parseIniUnit noLeaves aSocket [] (socketIni
      [⟨"PassCredentials".toList, "yes".toList, 2⟩, ⟨"Backlog".toList, "5".toList, 3⟩])) := by
  have hins : Inserted "Socket" "PassCredentials".toList "yes".toList
      (socketIni [⟨"Backlog".toList, "5".toList, 2⟩]) (socketIni
        [⟨"PassCredentials".toList, "yes".toList, 2⟩, ⟨"Backlog".toList, "5".toList, 3⟩]) :=
    inserted_socketIni _ _ 2 rfl
  have htakes : Tolerates "Socket" "PassCredentials".toList "yes".toList := fun _ _ => by decide
  have hiff : (∀ path, Unmoved aSocket.kind "Socket" "PassCredentials".toList
      (parseIniUnit noLeaves aSocket path _) (parseIniUnit noLeaves aSocket path _) ↔ _) ∧ _ :=
    linuxOnly_unmoved_iff rfl passCredentials_linuxOnly hins
  exact (hiff.1 []).mpr fun _ => htakes

/-- `PassCredentials=maybe` is refused. -/
theorem not_all_unmoved : ¬ ∀ (P : LeafParsers) (name : UnitName) (s : Section) (sec : String)
    (key value : Str) (ini ini' : Ini) (path : Str), (s.reader P name.kind).sec = some sec →
    (s.reader P name.kind).warning key = some .linuxOnly → Inserted sec key value ini ini' →
      Unmoved name.kind sec key (parseIniUnit P name path ini) (parseIniUnit P name path ini') := by
  intro h
  have hins : Inserted "Socket" "PassCredentials".toList "maybe".toList (socketIni [])
      (socketIni [⟨"PassCredentials".toList, "maybe".toList, 2⟩]) := inserted_socketIni _ _ 2 rfl
  have hunmoved := h noLeaves aSocket .own "Socket" _ _ _ _ [] rfl passCredentials_linuxOnly hins
  have hempty : ∀ sec : Str, (socketIni []).entriesOf sec = [] := by
    intro sec
    rw [entriesOf_socketIni, ite_self]
  have haccepted : Accepted noLeaves aSocket.kind (socketIni []) := by
    refine accepted_iff_sections.mpr fun s e he => ?_
    unfold Reader.entries at he
    cases hs : (s.reader noLeaves aSocket.kind).sec with
    | none => simp [hs] at he
    | some sec => simp [hs, hempty] at he
  have htakes := (unmoved_iff rfl passCredentials_linuxOnly hins []).mp hunmoved haccepted rfl
    (by decide)
  exact absurd htakes (by decide)

end Systeml.Unit
