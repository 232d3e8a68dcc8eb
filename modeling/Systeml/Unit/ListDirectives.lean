import Systeml.Unit.Parse

/-!
# Directives that accumulate

The typed list of such a directive is what all its assignments give, one behind the other
(`typedList_eq`). `Ini::effective_list` knows that an empty assignment resets the list, but
the typed parser does not go by it: the entries before the last empty one count as well.
The two agree exactly when those entries are read as nothing (`resetsList_iff`), which for
a directive with one element an entry means that there are none.
-/

namespace Systeml.Unit

open Systeml.Lib

/-! ## The rule -/

/-- An assignment without a value. -/
def Entry.isReset (e : Entry) : Bool := trim e.value == []

/-- `Ini::effective_list`, of the entries of one key. -/
def effectiveList (es : List Entry) : List Entry :=
  es.foldl (fun out e => if e.isReset then [] else out ++ [e]) []

/-- The entries up to the last empty one. -/
def droppedList : List Entry → List Entry
  | [] => []
  | e :: es => if e.isReset ∨ droppedList es ≠ [] then e :: droppedList es else []

theorem effectiveList_append (es : List Entry) (e : Entry) :
    effectiveList (es ++ [e]) = if e.isReset then [] else effectiveList es ++ [e] := by
  unfold effectiveList
  rw [List.foldl_append]
  rfl

theorem droppedList_append (es : List Entry) (e : Entry) :
    droppedList (es ++ [e]) = if e.isReset then es ++ [e] else droppedList es := by
  induction es with
  | nil =>
    by_cases he : e.isReset = true
    · simp [droppedList, he]
    · simp [droppedList, he]
  | cons x es ih =>
    rw [List.cons_append, droppedList, ih]
    by_cases he : e.isReset = true
    · rw [if_pos he, if_pos he, if_pos (.inr (by simp))]
    · rw [if_neg he, if_neg he]
      rfl

/-- What counts stands behind what does not. -/
theorem dropped_append_effective (es : List Entry) :
    droppedList es ++ effectiveList es = es := by
  induction es using List.reverseRecOn with
  | nil => rfl
  | append_singleton es e ih =>
    rw [droppedList_append, effectiveList_append]
    by_cases he : e.isReset = true
    · rw [if_pos he, if_pos he, List.append_nil]
    · rw [if_neg he, if_neg he, ← List.append_assoc, ih]

/-! ## The directives -/

/-- A directive that accumulates in a section. -/
structure Accumulating {S : Shape} (R : Reader S) where
  key : Str
  list : S.ListField
  /-- The elements of the list that are from this directive. -/
  part : S.Elem list → Bool
  read : Str → Except BadReason (List (S.Elem list))
  /-- The values without an element. -/
  blank : Str → Prop
  action_key : R.action key = .append list read
  own : ∀ {v xs}, read v = .ok xs → ∀ x ∈ xs, part x = true
  other : ∀ {k}, k ≠ key → ∀ v, ∀ x ∈ (R.action k).given v list, part x = false
  read_nil : ∀ {v}, read v = .ok [] ↔ blank v
  initial : R.initial.list list = []

variable {S : Shape} {R : Reader S}

namespace Accumulating

variable (K : Accumulating R)

/-- The entries of the directive. -/
def entries (ini : Ini) : List Entry := (R.entries ini).filter fun e => e.key = K.key

/-- What the parsed section has for the directive. -/
def typedList (r : S.Rec) : List (S.Elem K.list) := (r.list K.list).filter K.part

/-- The parsed values of entries. -/
def values (es : List Entry) : List (S.Elem K.list) :=
  es.flatMap fun e => (K.read e.value).toOption.getD []

variable {K}

theorem accepts_iff {e : Entry} (h : e.key = K.key) :
    R.Accepts e ↔ ∃ xs, K.read e.value = .ok xs := by
  unfold Reader.Accepts
  rw [h, K.action_key]
  rfl

theorem given_own {e : Entry} (h : e.key = K.key) :
    (R.action e.key).given e.value K.list = (K.read e.value).toOption.getD [] := by
  rw [h, K.action_key]
  cases hr : K.read e.value with
  | ok xs => exact Action.given_append hr
  | error x => simp [Action.given, hr, Except.toOption]

/-- What is collected from a directive is what its own entries give. -/
theorem filter_given (es : List Entry) :
    (es.flatMap fun e => (R.action e.key).given e.value K.list).filter K.part =
      K.values (es.filter fun e => e.key = K.key) := by
  induction es with
  | nil => rfl
  | cons e es ih =>
    rw [List.flatMap_cons, List.filter_append, ih]
    by_cases hkey : e.key = K.key
    · have hown : ((R.action e.key).given e.value K.list).filter K.part =
          (K.read e.value).toOption.getD [] := by
        rw [given_own hkey]
        refine List.filter_eq_self.mpr ?_
        intro x hx
        cases hr : K.read e.value with
        | ok xs =>
          rw [hr] at hx
          exact K.own hr x hx
        | error y =>
          rw [hr] at hx
          exact absurd hx List.not_mem_nil
      rw [hown, List.filter_cons_of_pos (by simpa using hkey)]
      rfl
    · have hother : ((R.action e.key).given e.value K.list).filter K.part = [] := by
        refine List.filter_eq_nil_iff.mpr ?_
        intro x hx
        rw [K.other hkey e.value x hx]
        exact Bool.false_ne_true
      rw [hother, List.filter_cons_of_neg (by simpa using hkey), List.nil_append]

/-- The typed list has what every entry of the directive gives. -/
theorem typedList_eq {path : Str} {ini : Ini} {r : S.Rec} (h : R.read path ini = .ok r) :
    K.typedList r = K.values (K.entries ini) := by
  unfold typedList
  rw [Reader.read_list h, K.initial, List.nil_append]
  exact filter_given _

theorem values_eq_nil {es : List Entry} (h : ∀ e ∈ es, ∃ xs, K.read e.value = .ok xs) :
    K.values es = [] ↔ ∀ e ∈ es, K.blank e.value := by
  unfold values
  rw [List.flatMap_eq_nil_iff]
  constructor
  · intro hnil e he
    obtain ⟨xs, hxs⟩ := h e he
    have hempty := hnil e he
    rw [hxs] at hempty
    obtain rfl : xs = [] := hempty
    exact K.read_nil.mp hxs
  · intro hblank e he
    rw [K.read_nil.mpr (hblank e he)]
    rfl

end Accumulating

/-! ## Empty assignments in a source -/

variable {P : LeafParsers} {n : UnitName}

/-- Nothing but entries of the directive that `effective_list` leaves out may be refused. -/
def OthersAccepted (P : LeafParsers) (n : UnitName) (ini : Ini)
    (K : Accumulating (readerOf P n.kind)) : Prop :=
  (∀ e ∈ (unitReader P).entries ini, (unitReader P).Accepts e) ∧
  (∀ e ∈ installReader.entries ini, installReader.Accepts e) ∧
  (∀ e ∈ (readerOf P n.kind).entries ini, e.key ≠ K.key → (readerOf P n.kind).Accepts e) ∧
  ∀ e ∈ effectiveList (K.entries ini), (readerOf P n.kind).Accepts e

/-- An empty assignment resets the typed list: it is read, and what it leaves are the
values of the entries behind it. -/
def ResetsList (P : LeafParsers) (n : UnitName) (source : Str) (path : Option Str) (ini : Ini)
    (K : Accumulating (readerOf P n.kind)) : Prop :=
  OthersAccepted P n ini K → ∃ r k, parseUnitStr P n source path = .ok r ∧
    r.unit.kind = ⟨n.kind, k⟩ ∧ K.typedList k = K.values (effectiveList (K.entries ini))

/-- Whether the whole file is accepted is up to the entries that are left out. -/
theorem accepted_iff {ini : Ini} {K : Accumulating (readerOf P n.kind)}
    (h : OthersAccepted P n ini K) : Accepted P n.kind ini ↔
      ∀ e ∈ droppedList (K.entries ini), ∃ xs, K.read e.value = .ok xs := by
  obtain ⟨hunit, hinstall, hother, heff⟩ := h
  have hkey : ∀ e ∈ K.entries ini, e.key = K.key := by
    intro e he
    simpa using List.of_mem_filter he
  have hmem : ∀ e, e ∈ K.entries ini ↔
      e ∈ droppedList (K.entries ini) ∨ e ∈ effectiveList (K.entries ini) := by
    intro e
    rw [← List.mem_append, dropped_append_effective]
  constructor
  · intro hacc e he
    have hent := (hmem e).mpr (.inl he)
    exact (Accumulating.accepts_iff (hkey e hent)).mp (hacc.2.2 e (List.mem_of_mem_filter hent))
  · intro hdrop
    refine ⟨hunit, hinstall, ?_⟩
    intro e he
    by_cases hk : e.key = K.key
    · have hent : e ∈ K.entries ini := List.mem_filter.mpr ⟨he, by simpa using hk⟩
      cases (hmem e).mp hent with
      | inl hd => exact (Accumulating.accepts_iff hk).mpr (hdrop e hd)
      | inr hf => exact heff e hf
    · exact hother e he hk

/-- **When an empty assignment resets the typed list**: exactly when what stands before
it holds no value either. -/
theorem resetsList_iff {source : Str} {path : Option Str} {ini : Ini}
    {K : Accumulating (readerOf P n.kind)}
    (h : parseIni (path.getD "<memory>".toList) source = .ok ini) :
    ResetsList P n source path ini K ↔
      (OthersAccepted P n ini K → ∀ e ∈ droppedList (K.entries ini), K.blank e.value) := by
  unfold ResetsList
  rw [parseUnitStr_eq h]
  refine forall_congr' fun hothers => ?_
  have hsplit : K.values (K.entries ini) = K.values (droppedList (K.entries ini)) ++
      K.values (effectiveList (K.entries ini)) := by
    unfold Accumulating.values
    rw [← List.flatMap_append, dropped_append_effective]
  constructor
  · intro hread
    obtain ⟨r, k, hr, hk, hlist⟩ := hread
    have hdrop := (accepted_iff hothers).mp (parseIniUnit_isOk.mp ⟨r, hr⟩)
    obtain ⟨u, i, k', -, -, hsec, rfl⟩ := parseIniUnit_eq_ok.mp hr
    obtain rfl : k' = k := by
      obtain ⟨-, hkk⟩ := Sigma.mk.inj hk
      exact eq_of_heq hkk
    rw [Accumulating.typedList_eq hsec, hsplit] at hlist
    exact (Accumulating.values_eq_nil hdrop).mp (List.append_left_eq_self.mp hlist)
  · intro hblank
    have hdrop : ∀ e ∈ droppedList (K.entries ini), ∃ xs, K.read e.value = .ok xs :=
      fun e he => ⟨[], K.read_nil.mpr (hblank e he)⟩
    obtain ⟨r, hr⟩ := parseIniUnit_isOk.mpr ((accepted_iff hothers).mpr hdrop)
    obtain ⟨u, i, k, -, -, hsec, rfl⟩ := parseIniUnit_eq_ok.mp hr
    refine ⟨_, k, hr, rfl, ?_⟩
    rw [Accumulating.typedList_eq hsec, hsplit, (Accumulating.values_eq_nil hdrop).mpr hblank,
      List.nil_append]

/-! ## The directives of the four sections -/

/-- One element an entry. -/
theorem push_ne_nil {α : Type} {x : Except BadReason α} :
    x.map (fun y => [y]) = .ok [] ↔ False := by
  cases x <;> simp [Except.map]

theorem ok_eq_nil {α ε : Type} {xs : List α} : (Except.ok xs : Except ε (List α)) = .ok [] ↔ xs = [] := by
  rw [Except.ok.injEq]

/-- Separators of words. -/
def OnlySeparators (v : Str) : Prop := ∀ c ∈ v, isWhitespace c = true ∨ c = ','

/-- Blanks between environment entries. -/
def OnlyBlanks (v : Str) : Prop := ∀ c ∈ v, c = ' ' ∨ c = '\t'

/-- Elements of a list that come from other rows of a table. -/
theorem other_of_table {table : List (String × S.Act)} {fallback : S.Act} {l : S.ListField}
    {p : S.Elem l → Bool} {key : String} (hfall : fallback.target ≠ some l)
    (hrow : ∀ row ∈ table, row.1 ≠ key → ∀ v, ∀ x ∈ row.2.given v l, p x = false) {k : Str}
    (hk : k ≠ key.toList) (v : Str) :
    ∀ x ∈ ((tableAction table k).getD fallback).given v l, p x = false := by
  intro x hx
  cases ha : tableAction table k with
  | none =>
    rw [ha] at hx
    rw [Option.getD_none, Action.given_of_target hfall] at hx
    exact absurd hx List.not_mem_nil
  | some a =>
    obtain ⟨row, hmem, hkey, rfl⟩ := mem_of_tableAction ha
    rw [ha] at hx
    refine hrow row hmem ?_ v x hx
    intro he
    exact hk (by rw [← hkey, he])

/-- A list with one directive. -/
theorem other_of_target {table : List (String × S.Act)} {l : S.ListField}
    {part : S.Elem l → Bool} {key : String}
    (htarget : ∀ row ∈ table, row.2.target = some l → row.1 = key) :
    ∀ row ∈ table, row.1 ≠ key → ∀ v, ∀ x ∈ row.2.given v l, part x = false := by
  intro row hrow hne v x hx
  rw [Action.given_of_target (fun he => hne (htarget row hrow he))] at hx
  exact absurd hx List.not_mem_nil

/-- A list whose elements say which directive they are from. -/
theorem other_of_key {table : List (String × S.Act)} {l : S.ListField}
    {keyOf : S.Elem l → String} {key : String}
    (hkeyOf : ∀ row ∈ table, ∀ v, ∀ x ∈ row.2.given v l, keyOf x = row.1) :
    ∀ row ∈ table, row.1 ≠ key → ∀ v, ∀ x ∈ row.2.given v l, (keyOf x == key) = false := by
  intro row hrow hne v x hx
  rw [hkeyOf row hrow v x hx]
  exact beq_eq_false_iff_ne.mpr hne

/-- The directive of a list of `[Service]`. -/
def ServiceList.key : ServiceList → String
  | .execStartPre => "ExecStartPre"
  | .execStart => "ExecStart"
  | .execStartPost => "ExecStartPost"
  | .execCondition => "ExecCondition"
  | .execReload => "ExecReload"
  | .execStop => "ExecStop"
  | .execStopPost => "ExecStopPost"
  | .environment => "Environment"
  | .environmentFiles => "EnvironmentFile"
  | .passEnvironment => "PassEnvironment"
  | .unsetEnvironment => "UnsetEnvironment"
  | .supplementaryGroups => "SupplementaryGroups"
  | .successExitStatus => "SuccessExitStatus"
  | .restartPreventExitStatus => "RestartPreventExitStatus"
  | .restartForceExitStatus => "RestartForceExitStatus"
  | .sockets => "Sockets"
  | .passthrough => ""

/-- How a list of `[Service]` is read. -/
def ServiceList.read : (l : ServiceList) → Str → Except BadReason (List l.Elem)
  | .execStartPre | .execStart | .execStartPost | .execCondition | .execReload | .execStop
  | .execStopPost => fun v => (ExecCommand.parse v).map fun c => [c]
  | .environment => parseEnvironmentLine
  | .environmentFiles => fun v => (readEnvironmentFile v).map fun f => [f]
  | .passEnvironment | .unsetEnvironment | .supplementaryGroups | .sockets => readList
  | .successExitStatus | .restartPreventExitStatus | .restartForceExitStatus => parseExitStatuses
  | .passthrough => fun _ => .ok []

/-- The values that give a list of `[Service]` nothing. -/
def ServiceList.blank : ServiceList → Str → Prop
  | .environment => OnlyBlanks
  | .passEnvironment | .unsetEnvironment | .supplementaryGroups | .sockets | .successExitStatus
  | .restartPreventExitStatus | .restartForceExitStatus => OnlySeparators
  | _ => fun _ => False

theorem serviceTable_target (P : LeafParsers) : ∀ row ∈ serviceTable P, ∀ l,
    row.2.target = some l → row.1 = l.key ∧ l ≠ .passthrough := by
  simp [serviceTable, Action.push, Action.set, Action.target, ServiceList.key]

theorem serviceTable_key (P : LeafParsers) {l : ServiceList} (h : l ≠ .passthrough) :
    tableAction (serviceTable P) l.key.toList = some (.append l l.read) := by
  rw [tableAction_toList]
  cases l <;> first
    | exact absurd rfl h
    | simp [serviceTable, ServiceList.key, ServiceList.read, Action.push]

theorem serviceList_known {l : ServiceList} (h : l ≠ .passthrough) :
    l.key ∉ linuxOnlyKeys ∧ l.key ∉ passthroughKeys := by
  cases l <;> first
    | exact absurd rfl h
    | simp [linuxOnlyKeys, passthroughKeys, ServiceList.key]

/-- `Exec*=`, `Environment=` and the other lists of `[Service]`. -/
def serviceDirective (P : LeafParsers) (l : ServiceList) (h : l ≠ .passthrough) :
    Accumulating (serviceReader P) where
  key := l.key.toList
  list := l
  part := fun _ => true
  read := l.read
  blank := l.blank
  action_key := by
    have hkey : ∀ ks : List String, l.key ∉ ks → l.key.toList ∉ ks.map String.toList := by
      intro ks hks hmem
      obtain ⟨k, hk, he⟩ := List.mem_map.mp hmem
      rw [String.toList_inj] at he
      exact hks (he ▸ hk)
    obtain ⟨hlinux, hpass⟩ := serviceList_known h
    show serviceAction P l.key.toList = _
    rw [serviceAction, if_neg (hkey _ hlinux), if_neg (hkey _ hpass), serviceTable_key P h]
    rfl
  own := fun _ _ _ => rfl
  other := by
    intro k hk v x hx
    have hpass : (servicePassthrough k).target ≠ some l := fun he => h (Option.some.inj he).symm
    have hnone : x ∉ (servicePassthrough k).given v l := by
      rw [Action.given_of_target hpass]
      exact List.not_mem_nil
    change x ∈ (serviceAction P k).given v l at hx
    unfold serviceAction at hx
    split at hx
    · exact absurd hx hnone
    · split at hx
      · exact absurd hx hnone
      · exact other_of_table (p := fun _ => true) hpass (other_of_target fun row hrow htarget =>
          (serviceTable_target P row hrow l htarget).1) hk v x hx
  read_nil := by
    intro v
    cases l
    case passthrough => exact absurd rfl h
    case environment => exact parseEnvironmentLine_eq_nil
    case passEnvironment | unsetEnvironment | supplementaryGroups | sockets =>
      exact ok_eq_nil.trans parseList_eq_nil
    case successExitStatus | restartPreventExitStatus | restartForceExitStatus =>
      exact parseExitStatuses_eq_nil
    case environmentFiles => exact push_ne_nil (x := readEnvironmentFile v)
    all_goals exact push_ne_nil
  initial := rfl

/-- `Listen*=`, by a socket of the kind. -/
def ListenSpec.read (P : LeafParsers) : ListenSpec → Str → Except BadReason ListenSpec
  | .stream _ => readListen P .stream
  | .datagram _ => readListen P .datagram
  | .sequentialPacket _ => readListen P .sequentialPacket
  | .fifo _ => fun v => .ok (.fifo v)
  | .special _ => fun v => .ok (.special v)
  | .netlink _ => fun v => .ok (.netlink v)
  | .messageQueue _ => fun v => .ok (.messageQueue v)
  | .usbFunction _ => fun v => .ok (.usbFunction v)

theorem key_of_read {P : LeafParsers} {spec x : ListenSpec} {v : Str}
    (h : spec.read P v = .ok x) : x.key = spec.key := by
  cases spec
  case stream | datagram | sequentialPacket =>
    obtain ⟨addr, -, rfl⟩ := map_eq_ok h
    rfl
  all_goals
    obtain rfl := Except.ok.inj h
    rfl

theorem given_push {v : Str} {l : S.ListField} {read : Str → Except BadReason (S.Elem l)}
    {x : S.Elem l} (h : x ∈ (Action.push l read : S.Act).given v l) : read v = .ok x := by
  unfold Action.push at h
  cases hr : read v with
  | error e => simp [Action.given, hr, Except.map] at h
  | ok y =>
    have hgiven : (Action.append l fun v => (read v).map fun x => [x] : S.Act).given v l = [y] :=
      Action.given_append (by rw [hr]; rfl)
    rw [hgiven] at h
    rw [List.mem_singleton.mp h]

/-- A socket of each kind. -/
def ListenSpec.kinds : List ListenSpec :=
  [.stream (.port 0), .datagram (.port 0), .sequentialPacket (.port 0), .fifo [], .special [],
    .netlink [], .messageQueue [], .usbFunction []]

theorem socketTable_eq (P : LeafParsers) : socketTable P =
    ListenSpec.kinds.map (fun s => (s.key, Action.push .listen (s.read P))) ++
      (socketTable P).drop 8 := rfl

theorem socketTable_rest (P : LeafParsers) :
    ∀ row ∈ (socketTable P).drop 8, row.2.target ≠ some .listen := by
  simp [socketTable, Action.set, Action.target]

theorem socketTable_key (P : LeafParsers) : ∀ row ∈ socketTable P, ∀ v,
    ∀ x ∈ row.2.given v .listen, ListenSpec.key x = row.1 := by
  intro row hrow v x hx
  rw [socketTable_eq] at hrow
  cases List.mem_append.mp hrow with
  | inl hlisten =>
    obtain ⟨spec, -, rfl⟩ := List.mem_map.mp hlisten
    have hread : spec.read P v = .ok x := given_push (S := socketShape) hx
    exact key_of_read hread
  | inr hrest =>
    rw [Action.given_of_target (socketTable_rest P row hrest)] at hx
    exact absurd hx List.not_mem_nil

/-- `Listen*=`. The socket stands for its kind. -/
def listenDirective (P : LeafParsers) (spec : ListenSpec) : Accumulating (socketReader P) where
  key := spec.key.toList
  list := .listen
  part := fun x => x.key == spec.key
  read := fun v => (spec.read P v).map fun x => [x]
  blank := fun _ => False
  action_key := by
    have hrow : tableAction (socketTable P) spec.key.toList =
        some (.push .listen (spec.read P)) := by
      rw [tableAction_toList]
      cases spec <;> simp [socketTable, ListenSpec.key, ListenSpec.read]
    show socketAction P spec.key.toList = _
    rw [socketAction, hrow]
    rfl
  own := by
    intro v xs h x hx
    obtain ⟨y, hy, rfl⟩ := map_eq_ok h
    rw [List.mem_singleton.mp hx]
    exact beq_iff_eq.mpr (key_of_read hy)
  other := fun hk v => other_of_table (by simp [Action.push, Action.target])
    (other_of_key (socketTable_key P)) hk v
  read_nil := push_ne_nil
  initial := rfl

/-- `Symlinks=`. -/
def symlinksDirective (P : LeafParsers) : Accumulating (socketReader P) where
  key := "Symlinks".toList
  list := .symlinks
  part := fun _ => true
  read := readList
  blank := OnlySeparators
  action_key := by
    have hrow : tableAction (socketTable P) "Symlinks".toList =
        some (.append .symlinks readList) := by
      rw [tableAction_toList]
      simp [socketTable]
    show socketAction P _ = _
    rw [socketAction, hrow]
    rfl
  own := fun _ _ _ => rfl
  other := fun hk v => other_of_table (p := fun _ => true) (by simp [Action.push, Action.target])
    (other_of_target (by simp [socketTable, Action.push, Action.set, Action.target])) hk v
  read_nil := ok_eq_nil.trans parseList_eq_nil
  initial := rfl

/-- `OnCalendar=`. -/
def calendarDirective (P : LeafParsers) : Accumulating (timerReader P) where
  key := "OnCalendar".toList
  list := .onCalendar
  part := fun _ => true
  read := fun v => (P.calendar v).map fun x => [x]
  blank := fun _ => False
  action_key := by
    have hrow : tableAction (timerTable P) "OnCalendar".toList =
        some (.push .onCalendar P.calendar) := by
      rw [tableAction_toList]
      simp [timerTable]
    show timerAction P _ = _
    rw [timerAction, hrow]
    rfl
  own := fun _ _ _ => rfl
  other := fun hk v => other_of_table (p := fun _ => true) (by simp [Action.target])
    (other_of_target (by simp [timerTable, Action.push, Action.set, Action.target])) hk v
  read_nil := push_ne_nil
  initial := rfl

/-- `Path*=` and `DirectoryNotEmpty=`, by a watch of the kind. -/
def PathWatch.read : PathWatch → Str → Except BadReason PathWatch
  | .pathExists _ => fun v => .ok (.pathExists v)
  | .existsGlob _ => fun v => .ok (.existsGlob v)
  | .changed _ => fun v => .ok (.changed v)
  | .modified _ => fun v => .ok (.modified v)
  | .directoryNotEmpty _ => fun v => .ok (.directoryNotEmpty v)

theorem key_of_watch {watch x : PathWatch} {v : Str} (h : watch.read v = .ok x) :
    x.key = watch.key := by
  cases watch
  all_goals
    obtain rfl := Except.ok.inj h
    rfl

theorem pathTable_key (P : LeafParsers) : ∀ row ∈ pathTable P, ∀ v,
    ∀ x ∈ row.2.given v .watches, PathWatch.key x = row.1 := by
  have hsplit : pathTable P =
      [PathWatch.pathExists [], .existsGlob [], .changed [], .modified [], .directoryNotEmpty []].map
        (fun w => (w.key, Action.push .watches w.read)) ++ (pathTable P).drop 5 := rfl
  have hrest : ∀ row ∈ (pathTable P).drop 5, row.2.target ≠ some .watches := by
    simp [pathTable, Action.set, Action.target]
  intro row hrow v x hx
  rw [hsplit] at hrow
  cases List.mem_append.mp hrow with
  | inl hwatch =>
    obtain ⟨watch, -, rfl⟩ := List.mem_map.mp hwatch
    have hread : watch.read v = .ok x := given_push (S := pathShape) hx
    exact key_of_watch hread
  | inr hmem =>
    rw [Action.given_of_target (hrest row hmem)] at hx
    exact absurd hx List.not_mem_nil

/-- The watches of `[Path]`. The watch stands for its kind. -/
def watchDirective (P : LeafParsers) (watch : PathWatch) : Accumulating (pathReader P) where
  key := watch.key.toList
  list := .watches
  part := fun x => x.key == watch.key
  read := fun v => (watch.read v).map fun x => [x]
  blank := fun _ => False
  action_key := by
    have hrow : tableAction (pathTable P) watch.key.toList =
        some (.push .watches watch.read) := by
      rw [tableAction_toList]
      cases watch <;> simp [pathTable, PathWatch.key, PathWatch.read]
    show pathAction P watch.key.toList = _
    rw [pathAction, hrow]
    rfl
  own := by
    intro v xs h x hx
    obtain ⟨y, hy, rfl⟩ := map_eq_ok h
    rw [List.mem_singleton.mp hx]
    exact beq_iff_eq.mpr (key_of_watch hy)
  other := fun hk v => other_of_table (by simp [Action.target])
    (other_of_key (pathTable_key P)) hk v
  read_nil := push_ne_nil
  initial := rfl

/-! ## A file that resets a command -/

/-- `ExecStart=`. -/
def execStartDirective : Accumulating (readerOf noLeaves .service) :=
  serviceDirective noLeaves .execStart (by decide)

/-- `ExecStart=` three times, the second without a value. -/
def resetEntries : List Entry :=
  [⟨"ExecStart".toList, "/bin/a".toList, 2⟩, ⟨"ExecStart".toList, [], 3⟩,
    ⟨"ExecStart".toList, "/bin/b".toList, 4⟩]

def resetIni : Ini := ⟨⟨[("Service".toList, resetEntries)], by decide⟩⟩

def resetSource : Str := "[Service]\nExecStart=/bin/a\nExecStart=\nExecStart=/bin/b".toList

theorem parse_resetSource (path : Str) : parseIni path resetSource = .ok resetIni := rfl

theorem key_execStart : execStartDirective.key = "ExecStart".toList := rfl

theorem read_execStart (v : Str) :
    execStartDirective.read v = (ExecCommand.parse v).map fun c => [c] := rfl

theorem entries_reset : execStartDirective.entries resetIni = resetEntries := by decide +kernel

/-- Nothing else is in the file, and the command behind the reset is accepted. -/
theorem othersAccepted_reset :
    OthersAccepted noLeaves ⟨"a".toList, none, .service⟩ resetIni execStartDirective := by
  have hunit : (unitReader noLeaves).entries resetIni = [] := by decide +kernel
  have hinstall : installReader.entries resetIni = [] := by decide +kernel
  have hkeys : ∀ e ∈ (serviceReader noLeaves).entries resetIni, e.key = "ExecStart".toList := by
    decide +kernel
  have heff : ∀ e ∈ effectiveList resetEntries,
      e.key = "ExecStart".toList ∧ e.value = "/bin/b".toList := by decide +kernel
  have hparse : ExecCommand.parse "/bin/b".toList =
      .ok ⟨"/bin/b".toList, ["/bin/b".toList], "/bin/b".toList, {}⟩ := by decide +kernel
  refine ⟨?_, ?_, ?_, ?_⟩
  · intro e he
    rw [hunit] at he
    exact absurd he List.not_mem_nil
  · intro e he
    rw [hinstall] at he
    exact absurd he List.not_mem_nil
  · intro e he hkey
    exact absurd ((hkeys e he).trans key_execStart.symm) hkey
  · intro e he
    rw [entries_reset] at he
    obtain ⟨hkey, hvalue⟩ := heff e he
    refine (Accumulating.accepts_iff (hkey.trans key_execStart.symm)).mpr ?_
    rw [hvalue, read_execStart, hparse]
    exact ⟨_, rfl⟩

theorem dropped_reset : ⟨"ExecStart".toList, [], 3⟩ ∈
    droppedList (execStartDirective.entries resetIni) := by
  rw [entries_reset]
  decide +kernel

/-- The commands of this file are not reset. -/
theorem resetsList_iff_example :
    ResetsList noLeaves ⟨"a".toList, none, .service⟩ resetSource none resetIni
      execStartDirective ↔ False := by
  refine (resetsList_iff (parse_resetSource _)).trans (iff_false_intro ?_)
  intro h
  exact h othersAccepted_reset _ dropped_reset

/-- An empty `ExecStart=` is an error. -/
theorem empty_exec_refused : ¬ ∀ (P : LeafParsers) (n : UnitName) (source : Str)
    (path : Option Str) (ini : Ini) (K : Accumulating (readerOf P n.kind)),
    parseIni (path.getD "<memory>".toList) source = .ok ini →
      ResetsList P n source path ini K := by
  intro h
  have hfile := h noLeaves ⟨"a".toList, none, .service⟩ resetSource none resetIni
    execStartDirective (parse_resetSource _)
  obtain ⟨r, k, hr, -, -⟩ := hfile othersAccepted_reset
  rw [parseUnitStr_eq (parse_resetSource _)] at hr
  obtain ⟨xs, hxs⟩ := (accepted_iff othersAccepted_reset).mp (parseIniUnit_isOk.mp ⟨r, hr⟩)
    _ dropped_reset
  -- the command line is empty
  rw [read_execStart] at hxs
  exact absurd hxs (by simp [ExecCommand.parse, trim, Except.map])

end Systeml.Unit
