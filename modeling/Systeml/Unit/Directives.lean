import Systeml.Lib.Assign
import Systeml.Unit.Render
import Systeml.Unit.Values

/-!
# Sections read by directive

A section of a unit file has fields that hold one value and fields that collect
(`Shape`); which directive does what to which field, and which one is worth a warning, is
a `Reader`. Reading a section applies its entries in order, and stops at the first whose
value is refused (`read_isOk`). Nothing that is read depends on a line number
(`read_congr`).
-/

namespace Systeml.Unit

open Systeml.Lib

/-- The fields of a section. -/
structure Shape where
  Field : Type
  ListField : Type
  Ty : Field → Type
  Elem : ListField → Type
  [decField : DecidableEq Field]
  [decList : DecidableEq ListField]

attribute [instance] Shape.decField Shape.decList

/-- A typed section. -/
abbrev Shape.Rec (S : Shape) : Type := Record S.Ty S.Elem

/-- What a directive does. -/
abbrev Shape.Act (S : Shape) : Type := Action Str BadReason S.Ty S.Elem

/-- Why a directive is reported. -/
inductive WarningKind where
  | linuxOnly | unknown
  deriving DecidableEq, Repr

/-- A non-fatal warning. -/
structure ParseWarning where
  path : Str
  line : Nat
  kind : WarningKind
  message : Str
  deriving DecidableEq, Repr

/-- `ParseWarning::linux_only` and `ParseWarning::unknown`. -/
def ParseWarning.ofKind (path : Str) (line : Nat) (sec : String) (key : Str) :
    WarningKind → ParseWarning
  | .linuxOnly => ⟨path, line, .linuxOnly,
      '[' :: sec.toList ++ "] ".toList ++ key ++
        "= is a Linux-kernel-only directive; parsed but not enforced on macOS".toList⟩
  | .unknown => ⟨path, line, .unknown,
      '[' :: sec.toList ++ "] unknown directive ".toList ++ key ++ ['=']⟩

/-- What prevents a unit file from being loaded. -/
inductive UnitError where
  | io (path : Str)
  | invalidName (e : ParseError)
  | syntactic (e : SyntaxError)
  | badDirective (path : Str) (line : Nat) (sec : String) (key value : Str) (reason : BadReason)
  deriving DecidableEq, Repr

/-- How the directives of a section are read. -/
structure Reader (S : Shape) where
  /-- The name of the section, if there is one. -/
  sec : Option String
  action : Str → S.Act
  warning : Str → Option WarningKind
  initial : S.Rec

namespace Reader

variable {S : Shape} (R : Reader S)

/-- The entries of the section. -/
def entries (ini : Ini) : List Entry :=
  match R.sec with
  | some sec => ini.entriesOf sec.toList
  | none => []

/-- Read the section. -/
def read (path : Str) (ini : Ini) : Except UnitError S.Rec :=
  match readAll (fun e => R.action e.key) (fun e : Entry => e.value) (R.entries ini) R.initial with
  | .ok r => .ok r
  | .error (e, reason) =>
    .error (.badDirective path e.line (R.sec.getD "") e.key e.value reason)

/-- What is reported about the section. -/
def warnings (path : Str) (ini : Ini) : List ParseWarning :=
  (R.entries ini).filterMap fun e =>
    (R.warning e.key).map (ParseWarning.ofKind path e.line (R.sec.getD "") e.key)

/-- What the last of some entries gives a field. -/
def lastValue (f : S.Field) (es : List Entry) : Option (S.Ty f) :=
  lastSet (fun e => R.action e.key) (fun e : Entry => e.value) f es

/-- The value of an entry is accepted. -/
def Accepts (e : Entry) : Prop := (R.action e.key).Accepts e.value

variable {R}

theorem read_eq_ok {path : Str} {ini : Ini} {r : S.Rec} : R.read path ini = .ok r ↔
    readAll (fun e => R.action e.key) (fun e : Entry => e.value) (R.entries ini) R.initial =
      .ok r := by
  unfold read
  cases readAll (fun e => R.action e.key) (fun e : Entry => e.value) (R.entries ini) R.initial with
  | ok s => simp
  | error e => simp

/-- A section is read when each of its values is accepted. -/
theorem read_isOk (path : Str) {ini : Ini} :
    (∃ r, R.read path ini = .ok r) ↔ ∀ e ∈ R.entries ini, R.Accepts e := by
  simp only [read_eq_ok]
  exact readAll_isOk R.initial

/-- What a field that collects holds. -/
theorem read_list {path : Str} {ini : Ini} {r : S.Rec} (h : R.read path ini = .ok r)
    (l : S.ListField) : r.list l =
      R.initial.list l ++ (R.entries ini).flatMap fun e => (R.action e.key).given e.value l :=
  (readAll_ok (read_eq_ok.mp h)).1 l

/-- What a field with one value holds. -/
theorem read_val {path : Str} {ini : Ini} {r : S.Rec} (h : R.read path ini = .ok r)
    (f : S.Field) : r.val f = (R.lastValue f (R.entries ini)).getD (R.initial.val f) :=
  (readAll_ok (read_eq_ok.mp h)).2 f

theorem lastValue_append (f : S.Field) (es es' : List Entry) :
    R.lastValue f (es ++ es') = (R.lastValue f es').or (R.lastValue f es) :=
  lastSet_append f es es'

theorem lastValue_pairs (f : S.Field) (es : List Entry) : R.lastValue f es =
    (es.map Entry.pair).reverse.findSome? fun p => (R.action p.1).sets p.2 f := by
  rw [← List.map_reverse, List.findSome?_map]
  rfl

/-- Line numbers do not matter. -/
theorem lastValue_congr {f : S.Field} {es es' : List Entry}
    (h : es.map Entry.pair = es'.map Entry.pair) :
    R.lastValue f es = R.lastValue f es' := by
  rw [lastValue_pairs, lastValue_pairs, h]

/-- The entries of a section, without their line numbers. -/
theorem pairs_entriesOf (ini : Ini) (name : Str) :
    (ini.entriesOf name).map Entry.pair = (getL ini.contents name).getD [] := by
  have h := IndexMap.get?_mapVal (fun (_ : Str) (es : List Entry) => es.map Entry.pair)
    ini.sections name
  rw [Ini.contents_eq, show getL (ini.sections.mapVal fun _ es => es.map Entry.pair).entries name =
    (ini.sections.get? name).map _ from h]
  unfold Ini.entriesOf
  cases ini.sections.get? name <;> rfl

theorem pairs_entries {a b : Ini} (h : a.contents = b.contents) :
    (R.entries a).map Entry.pair = (R.entries b).map Entry.pair := by
  unfold entries
  cases R.sec with
  | none => rfl
  | some sec => rw [pairs_entriesOf, pairs_entriesOf, h]

/-- Line numbers do not matter. -/
theorem readAll_congr : ∀ {es es' : List Entry} (r : S.Rec), es.map Entry.pair = es'.map Entry.pair →
    (readAll (fun e => R.action e.key) (fun e : Entry => e.value) es r).toOption =
      (readAll (fun e => R.action e.key) (fun e : Entry => e.value) es' r).toOption
  | [], es', r, h => by
    rw [List.map_eq_nil_iff.mp h.symm]
  | e :: es, es', r, h => by
    cases es' with
    | nil => exact absurd h (by simp)
    | cons e' es' =>
      obtain ⟨hpair, hrest⟩ := List.cons.inj h
      obtain ⟨hkey, hvalue⟩ := Prod.mk.inj hpair
      unfold readAll
      rw [hkey, hvalue]
      cases (R.action e'.key).run e'.value r with
      | error x => rfl
      | ok s => exact readAll_congr s hrest

theorem read_congr_pairs (path path' : Str) {a b : Ini}
    (h : (R.entries a).map Entry.pair = (R.entries b).map Entry.pair) :
    (R.read path a).toOption = (R.read path' b).toOption := by
  have hall := readAll_congr (R := R) R.initial h
  unfold read
  cases ha : readAll (fun e => R.action e.key) (fun e : Entry => e.value) (R.entries a) R.initial <;>
    cases hb : readAll (fun e => R.action e.key) (fun e : Entry => e.value) (R.entries b)
      R.initial <;>
    rw [ha, hb] at hall <;> exact hall

theorem read_congr {path : Str} (path' : Str) {a b : Ini} (h : a.contents = b.contents) :
    (R.read path a).toOption = (R.read path' b).toOption :=
  read_congr_pairs path path' (pairs_entries h)

end Reader

end Systeml.Unit
