import Mathlib.Data.List.Induction
import Systeml.Lib.Text
import Systeml.Lib.IndexMap

/-!
# File systems with symbolic links

A file system says what stands at each location: a file, a directory, a symbolic link or a
device. A path is resolved one name at a time, following links as they are met. What is
found in a file system is found in every larger one (`walk_mono`), and this is the fact
that the effect of one operation on the paths of another rests on.
-/

namespace Systeml.Lib

/-- Where something stands: the names on the way from the root. -/
abbrev Loc : Type := List Str

/-- What can stand at a location. -/
inductive Node where
  /-- A file, with its text if it can be read as such. -/
  | file (text : Option Str)
  | dir
  | symlink (target : Str)
  | device
  deriving DecidableEq, Repr

instance (f : Str) : Decidable (PlainName f) :=
  decidable_of_iff (f ≠ [] ∧ '/' ∉ f ∧ f ≠ ['.'] ∧ f ≠ ['.', '.'])
    ⟨fun h => ⟨h.1, h.2.1, h.2.2.1, h.2.2.2⟩, fun h => ⟨h.1, h.2, h.3, h.4⟩⟩

/-- A file system. What is not the root stands in a directory, under a plain name. -/
structure FileSystem where
  nodes : IndexMap Loc Node
  /-- Where relative paths start. -/
  cwd : Loc
  closed : ∀ p ∈ nodes.keys, (∀ name ∈ p, PlainName name) ∧
    (p.dropLast = [] ∨ nodes.get? p.dropLast = some .dir)

namespace FileSystem

/-- What stands at a location. -/
def node? (fs : FileSystem) (p : Loc) : Option Node :=
  if p = [] then some .dir else fs.nodes.get? p

variable {fs : FileSystem} {d : Loc} {name : Str} {x : Node}

theorem node?_snoc : fs.node? (d ++ [name]) = fs.nodes.get? (d ++ [name]) :=
  if_neg (by simp)

theorem closed_snoc (h : fs.node? (d ++ [name]) = some x) :
    (∀ c ∈ d ++ [name], PlainName c) ∧ fs.node? d = some .dir := by
  rw [node?_snoc] at h
  obtain ⟨hplain, hparent⟩ := fs.closed _ (IndexMap.mem_keys.mpr ⟨x, h⟩)
  rw [List.dropLast_concat] at hparent
  refine ⟨hplain, ?_⟩
  unfold node?
  cases hparent with
  | inl hroot => rw [if_pos hroot]
  | inr hdir =>
    split
    next => rfl
    next => exact hdir

theorem parent_dir (h : fs.node? (d ++ [name]) = some x) : fs.node? d = some .dir :=
  (closed_snoc h).2

/-- Only a directory has something under it. -/
theorem none_below (h : fs.node? d ≠ some .dir) (name : Str) : fs.node? (d ++ [name]) = none := by
  cases hx : fs.node? (d ++ [name]) with
  | none => rfl
  | some x => exact absurd (parent_dir hx) h

theorem plain_name (h : fs.node? (d ++ [name]) = some x) : PlainName name :=
  (closed_snoc h).1 name (List.mem_append_right _ (List.mem_singleton_self _))

/-- There is room for an entry. -/
def Free (fs : FileSystem) (d : Loc) (name : Str) : Prop :=
  fs.node? d = some .dir ∧ PlainName name ∧ fs.node? (d ++ [name]) = none

instance : Decidable (fs.Free d name) := inferInstanceAs (Decidable (_ ∧ _ ∧ _))

theorem names_plain (h : fs.node? d = some x) : ∀ c ∈ d, PlainName c := by
  cases d using List.reverseRecOn with
  | nil => exact fun c hc => absurd hc List.not_mem_nil
  | append_singleton d name => exact (closed_snoc h).1

/-- Make an entry. -/
def add (fs : FileSystem) (d : Loc) (name : Str) (x : Node) (h : fs.Free d name) :
    FileSystem where
  nodes := fs.nodes.insert (d ++ [name]) x
  cwd := fs.cwd
  closed := by
    obtain ⟨hdir, hname, hfree⟩ := h
    rw [node?_snoc] at hfree
    have hkeep : ∀ {q}, q = [] ∨ fs.nodes.get? q = some .dir →
        q = [] ∨ (fs.nodes.insert (d ++ [name]) x).get? q = some .dir := by
      intro q hq
      cases hq with
      | inl hq => exact Or.inl hq
      | inr hq =>
        have hne : q ≠ d ++ [name] := fun he => by simp [← he, hq] at hfree
        exact Or.inr ((IndexMap.get?_insert_ne hne _ _).trans hq)
    intro p hp
    cases IndexMap.mem_keys_insert.mp hp with
    | inl hnew =>
      subst hnew
      rw [List.dropLast_concat]
      constructor
      · intro c hc
        cases List.mem_append.mp hc with
        | inl hc => exact names_plain hdir c hc
        | inr hc => exact List.mem_singleton.mp hc ▸ hname
      · refine hkeep ?_
        unfold node? at hdir
        split at hdir
        next hroot => exact Or.inl hroot
        next => exact Or.inr hdir
    | inr hold =>
      obtain ⟨hplain, hparent⟩ := fs.closed p hold
      exact ⟨hplain, hkeep hparent⟩

/-- Remove what is no directory. -/
def erase (fs : FileSystem) (p : Loc) (h : fs.node? p ≠ some .dir) : FileSystem where
  nodes := fs.nodes.erase p
  cwd := fs.cwd
  closed := by
    intro q hq
    obtain ⟨hne, hold⟩ := IndexMap.mem_keys_erase.mp hq
    obtain ⟨hplain, hparent⟩ := fs.closed q hold
    refine ⟨hplain, hparent.imp_right ?_⟩
    intro hdir
    refine (IndexMap.get?_erase_ne ?_ _).trans hdir
    intro he
    have hp : p ≠ [] := fun hp => h (if_pos hp)
    exact h ((if_neg hp).trans (he ▸ hdir))

@[simp] theorem add_cwd (h : fs.Free d name) : (fs.add d name x h).cwd = fs.cwd := rfl

@[simp] theorem node?_add_self (h : fs.Free d name) :
    (fs.add d name x h).node? (d ++ [name]) = some x :=
  node?_snoc.trans (IndexMap.get?_insert_self ..)

theorem node?_add_ne (h : fs.Free d name) {p : Loc} (hp : p ≠ d ++ [name]) :
    (fs.add d name x h).node? p = fs.node? p := by
  unfold node?
  split
  next => rfl
  next => exact IndexMap.get?_insert_ne hp ..

@[simp] theorem erase_cwd {p : Loc} (h : fs.node? p ≠ some .dir) :
    (fs.erase p h).cwd = fs.cwd := rfl

theorem node?_erase_self {p : Loc} (h : fs.node? p ≠ some .dir) :
    (fs.erase p h).node? p = none := by
  have hp : p ≠ [] := fun hp => h (if_pos hp)
  exact (if_neg hp).trans (IndexMap.get?_erase_self ..)

theorem node?_erase_ne {p q : Loc} (h : fs.node? p ≠ some .dir) (hq : q ≠ p) :
    (fs.erase p h).node? q = fs.node? q := by
  unfold node?
  split
  next => rfl
  next => exact IndexMap.get?_erase_ne hq ..

/-! ## Resolving paths -/

/-- Where the target of a link, or a path, starts. -/
def startOf (cur : Loc) (p : Str) : Loc := if isAbsolute p then [] else cur

/-- One name of a path. `next` resolves the target of a link. -/
def step (fs : FileSystem) (next : Loc → List Str → Option Loc) (cur : Loc) (c : Str) :
    Option Loc :=
  if fs.node? cur ≠ some .dir then none
  else if c = ['.', '.'] then some cur.dropLast
  else match fs.node? (cur ++ [c]) with
    | none => none
    | some (.symlink t) => next (startOf cur t) (components t)
    | some _ => some (cur ++ [c])

/-- Resolve names, following links whose targets lead over at most that many others. -/
def resolve (fs : FileSystem) : Nat → Loc → List Str → Option Loc
  | 0 => fun cur cs => cs.foldlM (fs.step fun _ _ => none) cur
  | n + 1 => fun cur cs => cs.foldlM (fs.step (fs.resolve n)) cur

/-- How deep links may lead into links. -/
def maxNested : Nat := 39

/-- Follow a link. -/
def follow (fs : FileSystem) : Loc → List Str → Option Loc := fs.resolve maxNested

/-- Resolve names. -/
def walk (fs : FileSystem) (cur : Loc) (cs : List Str) : Option Loc :=
  cs.foldlM (fs.step fs.follow) cur

/-- The location that a path leads to, if there is something. -/
def canonicalize (fs : FileSystem) (p : Str) : Option Loc :=
  fs.walk (startOf fs.cwd p) (components p)

/-- The directory and the name of a path, links in its last name not followed. -/
def place (fs : FileSystem) (p : Str) : Option (Loc × Str) :=
  match (components p).getLast? with
  | none => none
  | some name => (fs.walk (startOf fs.cwd p) (components p).dropLast).map fun d => (d, name)

/-- `metadata`: what a path leads to. -/
def stat (fs : FileSystem) (p : Str) : Option Node := (fs.canonicalize p).bind fs.node?

/-- `symlink_metadata`: what stands at a path. -/
def lstat (fs : FileSystem) (p : Str) : Option Node :=
  (fs.place p).bind fun q => fs.node? (q.1 ++ [q.2])

/-- `Path::exists`. -/
def pathExists (fs : FileSystem) (p : Str) : Bool := (fs.stat p).isSome

/-- `read_link`. -/
def readLink (fs : FileSystem) (p : Str) : Option Str :=
  match fs.lstat p with
  | some (.symlink t) => some t
  | _ => none

/-- `Path::is_symlink`. -/
def isSymlink (fs : FileSystem) (p : Str) : Bool := (fs.readLink p).isSome

/-- `Path::is_file`. -/
def isFile (fs : FileSystem) (p : Str) : Bool :=
  match fs.stat p with
  | some (.file _) => true
  | _ => false

/-- `read_to_string`. -/
def readToString (fs : FileSystem) (p : Str) : Option Str :=
  match fs.stat p with
  | some (.file text) => text
  | _ => none

/-- The names in a directory. -/
def names (fs : FileSystem) (d : Loc) : List Str :=
  fs.nodes.keys.filterMap fun p => if p.dropLast = d then p.getLast? else none

/-- `read_dir`, with the type of each entry. -/
def readDir (fs : FileSystem) (p : Str) : Option (List (Str × Node)) :=
  match fs.canonicalize p with
  | none => none
  | some d =>
    if fs.node? d = some .dir then
      some ((fs.names d).filterMap fun name => (fs.node? (d ++ [name])).map fun x => (name, x))
    else none

/-! ## Changing the tree -/

/-- `remove_file`. -/
def removeFile (fs : FileSystem) (p : Str) : Option FileSystem :=
  match fs.place p with
  | none => none
  | some (d, name) =>
    if h : fs.node? (d ++ [name]) ≠ none ∧ fs.node? (d ++ [name]) ≠ some .dir then
      some (fs.erase (d ++ [name]) h.2)
    else none

/-- `symlink`. -/
def symlink (fs : FileSystem) (target p : Str) : Option FileSystem :=
  match fs.place p with
  | none => none
  | some (d, name) =>
    if h : fs.Free d name then some (fs.add d name (.symlink target) h) else none

/-- One name of a path whose directories are made. -/
def makeStep (fs : FileSystem) (cur : Loc) (c : Str) : FileSystem × Option Loc :=
  if h : fs.Free cur c then (fs.add cur c .dir h, some (cur ++ [c]))
  else (fs, fs.step fs.follow cur c)

/-- The directories of a path, made where they are missing. -/
def makeDirs : FileSystem → Loc → List Str → FileSystem × Option Loc
  | fs, cur, [] => (fs, if fs.node? cur = some .dir then some cur else none)
  | fs, cur, c :: cs =>
    match fs.makeStep cur c with
    | (fs, some d) => fs.makeDirs d cs
    | (fs, none) => (fs, none)

/-- `create_dir_all`, with the location of the directory. What was made before a failure
stays. -/
def createDirAll (fs : FileSystem) (p : Str) : FileSystem × Option Loc :=
  fs.makeDirs (startOf fs.cwd p) (components p)

/-! ## Larger file systems -/

/-- Everything is still there. -/
structure Extends (fs fs' : FileSystem) : Prop where
  cwd : fs'.cwd = fs.cwd
  node : ∀ {p x}, fs.node? p = some x → fs'.node? p = some x

theorem Extends.refl (fs : FileSystem) : Extends fs fs := ⟨rfl, id⟩

theorem Extends.trans {a b c : FileSystem} (hab : Extends a b) (hbc : Extends b c) :
    Extends a c :=
  ⟨hbc.cwd.trans hab.cwd, fun h => hbc.node (hab.node h)⟩

theorem extends_add (h : fs.Free d name) : Extends fs (fs.add d name x h) where
  cwd := rfl
  node := by
    intro p y hp
    rw [node?_add_ne h]
    · exact hp
    · intro he
      rw [he, h.2.2] at hp
      exact absurd hp (by simp)

variable {fs' : FileSystem}

theorem step_mono {next next' : Loc → List Str → Option Loc} (h : Extends fs fs')
    (hnext : ∀ {cur cs q}, next cur cs = some q → next' cur cs = some q) {cur q : Loc} {c : Str}
    (hs : fs.step next cur c = some q) : fs'.step next' cur c = some q := by
  unfold step at hs ⊢
  by_cases hdir : fs.node? cur = some .dir
  · rw [if_neg (not_not.mpr hdir)] at hs
    rw [if_neg (not_not.mpr (h.node hdir))]
    by_cases hc : c = ['.', '.']
    · rw [if_pos hc] at hs ⊢
      exact hs
    · rw [if_neg hc] at hs ⊢
      cases hx : fs.node? (cur ++ [c]) with
      | none =>
        rw [hx] at hs
        exact absurd hs (by simp)
      | some y =>
        rw [hx] at hs
        rw [h.node hx]
        cases y with
        | symlink t => exact hnext hs
        | file _ => exact hs
        | dir => exact hs
        | device => exact hs
  · rw [if_pos hdir] at hs
    exact absurd hs (by simp)

theorem foldlM_mono {α β : Type} {f g : α → β → Option α}
    (h : ∀ {a b c}, f a b = some c → g a b = some c) : ∀ {bs : List β} {a c : α},
    bs.foldlM f a = some c → bs.foldlM g a = some c
  | [], a, c, hc => hc
  | b :: bs, a, c, hc => by
    rw [List.foldlM_cons] at hc ⊢
    obtain ⟨a', ha, hc⟩ := Option.bind_eq_some_iff.mp hc
    exact Option.bind_eq_some_iff.mpr ⟨a', h ha, foldlM_mono h hc⟩

theorem resolve_mono (h : Extends fs fs') : ∀ {n : Nat} {cur q : Loc} {cs : List Str},
    fs.resolve n cur cs = some q → fs'.resolve n cur cs = some q
  | 0, _, _, _, hq => foldlM_mono (step_mono h id) hq
  | _ + 1, _, _, _, hq => foldlM_mono (step_mono h (resolve_mono h)) hq

/-- What is found is found in a larger file system. -/
theorem walk_mono (h : Extends fs fs') {cur q : Loc} {cs : List Str}
    (hq : fs.walk cur cs = some q) : fs'.walk cur cs = some q :=
  foldlM_mono (step_mono h (resolve_mono h)) hq

theorem canonicalize_mono (h : Extends fs fs') {p : Str} {q : Loc}
    (hq : fs.canonicalize p = some q) : fs'.canonicalize p = some q := by
  unfold canonicalize at hq ⊢
  rw [h.cwd]
  exact walk_mono h hq

theorem place_mono (h : Extends fs fs') {p : Str} {q : Loc × Str} (hq : fs.place p = some q) :
    fs'.place p = some q := by
  unfold place at hq ⊢
  rw [h.cwd]
  split at hq
  next => exact absurd hq (by simp)
  next c hc =>
    obtain ⟨e, he, rfl⟩ := Option.map_eq_some_iff.mp hq
    rw [walk_mono h he]
    rfl

theorem walk_append (cur : Loc) (cs cs' : List Str) :
    fs.walk cur (cs ++ cs') = (fs.walk cur cs).bind fun e => fs.walk e cs' :=
  List.foldlM_append

theorem walk_singleton (cur : Loc) (c : Str) : fs.walk cur [c] = fs.step fs.follow cur c := by
  unfold walk
  rw [List.foldlM_cons]
  cases fs.step fs.follow cur c <;> rfl

theorem step_spec {next : Loc → List Str → Option Loc} {cur q : Loc} {c : Str}
    (h : fs.step next cur c = some q) : fs.node? cur = some .dir ∧
      (c ≠ ['.', '.'] → fs.node? (cur ++ [c]) ≠ none) := by
  unfold step at h
  by_cases hdir : fs.node? cur = some .dir
  · refine ⟨hdir, fun hc hnone => ?_⟩
    rw [if_neg (not_not.mpr hdir), if_neg hc, hnone] at h
    exact absurd h (by simp)
  · rw [if_pos hdir] at h
    exact absurd h (by simp)

theorem step_plain {next : Loc → List Str → Option Loc} {cur : Loc} {c : Str}
    (hx : fs.node? (cur ++ [c]) = some x) (hlink : ∀ t, x ≠ .symlink t) :
    fs.step next cur c = some (cur ++ [c]) := by
  unfold step
  rw [if_neg (not_not.mpr (parent_dir hx)), if_neg (plain_name hx).notDotDot, hx]
  cases x with
  | symlink t => exact absurd rfl (hlink t)
  | file _ => rfl
  | dir => rfl
  | device => rfl

/-! ## An entry of a directory -/

theorem startOf_join {cur : Loc} {dir f : Str} (hf : PlainName f) :
    startOf cur (joinPath dir f) = startOf cur dir := by
  have habs : isAbsolute (joinPath dir f) = isAbsolute dir := by
    unfold joinPath
    rw [if_neg (by rw [hf.notAbsolute]; exact Bool.false_ne_true)]
    split
    next hdir =>
      rw [hdir, hf.notAbsolute]
      rfl
    next hdir =>
      have hhead : ∀ s : Str, isAbsolute (dir ++ s) = isAbsolute dir := by
        intro s
        unfold isAbsolute
        rw [List.head?_append_of_ne_nil _ hdir]
      split
      · exact hhead _
      · exact hhead _
  unfold startOf
  rw [habs]

theorem canonicalize_join {dir f : Str} (hf : PlainName f) :
    fs.canonicalize (joinPath dir f) =
      (fs.canonicalize dir).bind fun d => fs.step fs.follow d f := by
  unfold canonicalize
  rw [startOf_join hf, components_joinPath hf, walk_append]
  simp only [walk_singleton]

theorem place_join {dir f : Str} (hf : PlainName f) :
    fs.place (joinPath dir f) = (fs.canonicalize dir).map fun d => (d, f) := by
  unfold place canonicalize
  rw [startOf_join hf, components_joinPath hf, List.getLast?_concat, List.dropLast_concat]

theorem lstat_join {dir f : Str} (hf : PlainName f) :
    fs.lstat (joinPath dir f) = (fs.canonicalize dir).bind fun d => fs.node? (d ++ [f]) := by
  rw [lstat, place_join hf, Option.bind_map]
  rfl

/-- A path exists, or is a symbolic link, when something stands there. -/
theorem exists_or_symlink_join {dir f : Str} (hf : PlainName f) :
    (fs.pathExists (joinPath dir f) || fs.isSymlink (joinPath dir f)) = true ↔
      ∃ d x, fs.canonicalize dir = some d ∧ fs.node? (d ++ [f]) = some x := by
  rw [Bool.or_eq_true]
  constructor
  · intro h
    cases h with
    | inl h =>
      obtain ⟨x, hx⟩ := Option.isSome_iff_exists.mp h
      rw [stat, canonicalize_join hf] at hx
      obtain ⟨q, hq, -⟩ := Option.bind_eq_some_iff.mp hx
      obtain ⟨d, hd, hstep⟩ := Option.bind_eq_some_iff.mp hq
      obtain ⟨y, hy⟩ := Option.ne_none_iff_exists'.mp ((step_spec hstep).2 hf.notDotDot)
      exact ⟨d, y, hd, hy⟩
    | inr h =>
      unfold isSymlink readLink at h
      cases hl : fs.lstat (joinPath dir f) with
      | none =>
        rw [hl] at h
        exact absurd h (by simp)
      | some x =>
        rw [lstat_join hf] at hl
        obtain ⟨d, hd, hx⟩ := Option.bind_eq_some_iff.mp hl
        exact ⟨d, x, hd, hx⟩
  · intro h
    obtain ⟨d, x, hd, hx⟩ := h
    by_cases hlink : ∃ t, x = .symlink t
    · obtain ⟨t, rfl⟩ := hlink
      refine Or.inr ?_
      unfold isSymlink readLink
      rw [lstat_join hf, hd, Option.bind_some, hx]
      rfl
    · refine Or.inl ?_
      have hstep : fs.step fs.follow d f = some (d ++ [f]) :=
        step_plain hx fun t ht => hlink ⟨t, ht⟩
      unfold pathExists stat
      rw [canonicalize_join hf, hd, Option.bind_some, hstep, Option.bind_some, hx]
      rfl

theorem mem_names : name ∈ fs.names d ↔ fs.node? (d ++ [name]) ≠ none := by
  unfold names
  rw [List.mem_filterMap, node?_snoc]
  constructor
  · intro h
    obtain ⟨p, hp, hname⟩ := h
    split at hname
    next hd =>
      obtain ⟨q, rfl⟩ := List.getLast?_eq_some_iff.mp hname
      rw [List.dropLast_concat] at hd
      rw [← hd]
      exact fun hnone => IndexMap.get?_eq_none.mp hnone hp
    next => exact absurd hname (by simp)
  · intro h
    obtain ⟨x, hx⟩ := Option.ne_none_iff_exists'.mp h
    refine ⟨d ++ [name], IndexMap.mem_keys.mpr ⟨x, hx⟩, ?_⟩
    rw [List.dropLast_concat, if_pos rfl, List.getLast?_concat]

/-- The entries of a directory. -/
theorem readDir_spec {p : Str} {entries : List (Str × Node)} (h : fs.readDir p = some entries) :
    ∃ d, fs.canonicalize p = some d ∧ fs.node? d = some .dir ∧
      ∀ name x, (name, x) ∈ entries ↔ fs.node? (d ++ [name]) = some x := by
  unfold readDir at h
  split at h
  next => exact absurd h (by simp)
  next d hd =>
    split at h
    next hdir =>
      obtain rfl := Option.some.inj h
      refine ⟨d, hd, hdir, fun name x => ?_⟩
      rw [List.mem_filterMap]
      constructor
      · intro hmem
        obtain ⟨c, -, hc⟩ := hmem
        obtain ⟨y, hy, he⟩ := Option.map_eq_some_iff.mp hc
        obtain ⟨rfl, rfl⟩ := Prod.mk.inj he
        exact hy
      · intro hx
        refine ⟨name, mem_names.mpr ?_, ?_⟩
        · rw [hx]
          exact Option.some_ne_none x
        · rw [hx]
          rfl
    next => exact absurd h (by simp)

/-! ## What the operations change -/

/-- Nothing is new but directories. -/
def OnlyDirs (fs fs' : FileSystem) : Prop :=
  ∀ {p x}, fs'.node? p = some x → fs.node? p = some x ∨ x = .dir

theorem makeStep_spec (fs : FileSystem) (cur : Loc) (c : Str) : Extends fs (fs.makeStep cur c).1 ∧
    OnlyDirs fs (fs.makeStep cur c).1 ∧ (fs.makeStep cur c).1.step
      (fs.makeStep cur c).1.follow cur c = (fs.makeStep cur c).2 := by
  unfold makeStep
  by_cases h : fs.Free cur c
  · rw [dif_pos h]
    refine ⟨extends_add h, ?_, step_plain (node?_add_self h) (by simp)⟩
    intro p x hx
    by_cases hp : p = cur ++ [c]
    · subst hp
      rw [node?_add_self h] at hx
      exact Or.inr (Option.some.inj hx).symm
    · rw [node?_add_ne h hp] at hx
      exact Or.inl hx
  · rw [dif_neg h]
    exact ⟨Extends.refl fs, fun hx => Or.inl hx, rfl⟩

/-- `create_dir_all` adds directories, and its path leads to what it returns. -/
theorem makeDirs_spec : ∀ (cs : List Str) (fs : FileSystem) (cur : Loc),
    Extends fs (fs.makeDirs cur cs).1 ∧ OnlyDirs fs (fs.makeDirs cur cs).1 ∧
      ∀ d, (fs.makeDirs cur cs).2 = some d → (fs.makeDirs cur cs).1.walk cur cs = some d ∧
        (fs.makeDirs cur cs).1.node? d = some .dir
  | [], fs, cur => by
    refine ⟨Extends.refl fs, fun hx => Or.inl hx, ?_⟩
    intro d hd
    unfold makeDirs at hd
    split at hd
    next hdir => exact ⟨hd, Option.some.inj hd ▸ hdir⟩
    next => exact absurd hd (by simp)
  | c :: cs, fs, cur => by
    obtain ⟨hext, hdirs, hstep⟩ := makeStep_spec fs cur c
    unfold makeDirs
    cases hm : fs.makeStep cur c with
    | mk g o =>
      rw [hm] at hext hdirs hstep
      cases o with
      | none => exact ⟨hext, hdirs, fun d hd => absurd hd (by simp)⟩
      | some e =>
        obtain ⟨hext', hdirs', hwalk⟩ := makeDirs_spec cs g e
        refine ⟨hext.trans hext', ?_, ?_⟩
        · intro p x hx
          cases hdirs' hx with
          | inl hx => exact hdirs hx
          | inr hx => exact Or.inr hx
        · intro d hd
          obtain ⟨hd, hdir⟩ := hwalk d hd
          refine ⟨?_, hdir⟩
          have hstep' := step_mono hext' (resolve_mono hext') hstep
          show (g.makeDirs e cs).1.walk cur ([c] ++ cs) = some d
          rw [walk_append, walk_singleton]
          exact Option.bind_eq_some_iff.mpr ⟨e, hstep', hd⟩

/-- Nothing is made where the path leads already. -/
theorem makeDirs_of_walk {cs' : List Str} : ∀ {cs : List Str} {cur d : Loc},
    fs.walk cur cs = some d → fs.makeDirs cur (cs ++ cs') = fs.makeDirs d cs'
  | [], cur, d, h => by
    obtain rfl : cur = d := Option.some.inj h
    rfl
  | c :: cs, cur, d, h => by
    have hcons : fs.walk cur ([c] ++ cs) = some d := h
    rw [walk_append, walk_singleton] at hcons
    obtain ⟨e, he, hd⟩ := Option.bind_eq_some_iff.mp hcons
    have hfree : ¬ fs.Free cur c := fun hf => (step_spec he).2 hf.2.1.notDotDot hf.2.2
    rw [List.cons_append, makeDirs, makeStep, dif_neg hfree, he]
    exact makeDirs_of_walk hd

/-- Below what is not there yet everything is new. -/
theorem makeDirs_fresh {fs₀ : FileSystem} : ∀ {cs : List Str} {fs : FileSystem} {cur d : Loc},
    OnlyDirs fs₀ fs → fs₀.node? cur = none → ['.', '.'] ∉ cs →
    (fs.makeDirs cur cs).2 = some d → fs₀.node? d = none
  | [], fs, cur, d, _, hcur, _, h => by
    unfold makeDirs at h
    split at h
    next => exact Option.some.inj h ▸ hcur
    next => exact absurd h (by simp)
  | c :: cs, fs, cur, d, hdirs, hcur, hdots, h => by
    obtain ⟨hc, hcs⟩ := not_or.mp (mt List.mem_cons.mpr hdots)
    have hnew : fs₀.node? (cur ++ [c]) = none := none_below (by simp [hcur]) c
    obtain ⟨-, hdirs', hstep⟩ := makeStep_spec fs cur c
    unfold makeDirs at h
    cases hm : fs.makeStep cur c with
    | mk g o =>
      rw [hm] at h hdirs' hstep
      have hall : OnlyDirs fs₀ g := by
        intro p x hx
        cases hdirs' hx with
        | inl hx => exact hdirs hx
        | inr hx => exact Or.inr hx
      cases o with
      | none => exact absurd h (by simp)
      | some e =>
        -- what stands there was made on the way, so it is a directory
        obtain ⟨x, hx⟩ := Option.ne_none_iff_exists'.mp ((step_spec hstep).2 (Ne.symm hc))
        have hdir : x = .dir := by
          cases hall hx with
          | inl hold =>
            rw [hold] at hnew
            exact absurd hnew (by simp)
          | inr hdir => exact hdir
        have he := hstep.symm.trans (step_plain hx (by simp [hdir]))
        obtain rfl := Option.some.inj he
        exact makeDirs_fresh hall hnew hcs h

/-- Without `..` the directory was there before, or it is new. -/
theorem makeDirs_settled : ∀ {cs : List Str} {cur d : Loc}, ['.', '.'] ∉ cs →
    (fs.makeDirs cur cs).2 = some d → fs.walk cur cs = some d ∨ fs.node? d = none
  | [], cur, d, _, h => by
    unfold makeDirs at h
    split at h
    next => exact Or.inl h
    next => exact absurd h (by simp)
  | c :: cs, cur, d, hdots, h => by
    obtain ⟨-, hcs⟩ := not_or.mp (mt List.mem_cons.mpr hdots)
    unfold makeDirs makeStep at h
    by_cases hf : fs.Free cur c
    · rw [dif_pos hf] at h
      have hdirs : OnlyDirs fs (fs.add cur c .dir hf) := by
        intro p x hx
        by_cases hp : p = cur ++ [c]
        · subst hp
          rw [node?_add_self hf] at hx
          exact Or.inr (Option.some.inj hx).symm
        · rw [node?_add_ne hf hp] at hx
          exact Or.inl hx
      exact Or.inr (makeDirs_fresh hdirs hf.2.2 hcs h)
    · rw [dif_neg hf] at h
      cases hs : fs.step fs.follow cur c with
      | none =>
        rw [hs] at h
        exact absurd h (by simp)
      | some e =>
        rw [hs] at h
        refine (makeDirs_settled hcs h).imp_left ?_
        intro hw
        show fs.walk cur ([c] ++ cs) = some d
        rw [walk_append, walk_singleton]
        exact Option.bind_eq_some_iff.mpr ⟨e, hs, hw⟩

/-- On the way to a directory the first part of the path is made first. -/
theorem makeDirs_append {c : Str} {cs' : List Str} : ∀ {cs : List Str} {fs : FileSystem}
    {cur d : Loc}, (fs.makeDirs cur (cs ++ c :: cs')).2 = some d →
    ∃ g b, fs.makeDirs cur cs = (g, some b) ∧
      fs.makeDirs cur (cs ++ c :: cs') = g.makeDirs b (c :: cs')
  | [], fs, cur, d, h => by
    refine ⟨fs, cur, ?_, rfl⟩
    have hdir : fs.node? cur = some .dir := by
      rw [List.nil_append] at h
      unfold makeDirs at h
      cases hm : fs.makeStep cur c with
      | mk g o =>
        by_cases hf : fs.Free cur c
        · exact hf.1
        · unfold makeStep at hm
          rw [dif_neg hf] at hm
          cases hs : fs.step fs.follow cur c with
          | some e => exact (step_spec hs).1
          | none =>
            obtain ⟨rfl, rfl⟩ := Prod.mk.inj hm
            unfold makeStep at h
            rw [dif_neg hf, hs] at h
            exact absurd h (by simp)
    unfold makeDirs
    rw [if_pos hdir]
  | c₁ :: cs, fs, cur, d, h => by
    rw [List.cons_append] at h ⊢
    unfold makeDirs at h ⊢
    cases hm : fs.makeStep cur c₁ with
    | mk g o =>
      rw [hm] at h
      cases o with
      | none => exact absurd h (by simp)
      | some e => exact makeDirs_append h

/-- What `symlink` adds. -/
theorem symlink_spec {g : FileSystem} {target p : Str} (h : fs.symlink target p = some g) :
    ∃ d name, fs.place p = some (d, name) ∧ fs.node? (d ++ [name]) = none ∧ Extends fs g ∧
      g.node? (d ++ [name]) = some (.symlink target) ∧
      ∀ q, q ≠ d ++ [name] → g.node? q = fs.node? q := by
  unfold symlink at h
  split at h
  next => exact absurd h (by simp)
  next d name hplace =>
    split at h
    next hfree =>
      obtain rfl := Option.some.inj h
      exact ⟨d, name, hplace, hfree.2.2, extends_add hfree, node?_add_self hfree,
        fun q hq => node?_add_ne hfree hq⟩
    next => exact absurd h (by simp)

/-- What `remove_file` takes away. -/
theorem removeFile_spec {g : FileSystem} {p : Str} (h : fs.removeFile p = some g) :
    ∃ d name, fs.place p = some (d, name) ∧ fs.node? (d ++ [name]) ≠ some .dir ∧
      Extends g fs ∧ g.node? (d ++ [name]) = none ∧
      ∀ q, q ≠ d ++ [name] → g.node? q = fs.node? q := by
  unfold removeFile at h
  split at h
  next => exact absurd h (by simp)
  next d name hplace =>
    split at h
    next hx =>
      obtain rfl := Option.some.inj h
      have hself := node?_erase_self hx.2
      refine ⟨d, name, hplace, hx.2, ⟨rfl, ?_⟩, hself, fun q hq => node?_erase_ne hx.2 hq⟩
      intro q y hy
      by_cases hq : q = d ++ [name]
      · rw [hq, hself] at hy
        exact absurd hy (by simp)
      · rwa [node?_erase_ne hx.2 hq] at hy
    next => exact absurd h (by simp)

theorem removeFile_isSome {p : Str} (hplace : fs.place p = some (d, name))
    (hx : fs.node? (d ++ [name]) = some x) (hdir : x ≠ .dir) :
    ∃ g, fs.removeFile p = some g := by
  have hfile : fs.node? (d ++ [name]) ≠ none ∧ fs.node? (d ++ [name]) ≠ some .dir := by
    rw [hx]
    exact ⟨Option.some_ne_none x, fun he => hdir (Option.some.inj he)⟩
  unfold removeFile
  rw [hplace]
  exact ⟨_, dif_pos hfile⟩

/-! ## Making a directory -/

theorem createDirAll_spec (fs : FileSystem) (p : Str) : Extends fs (fs.createDirAll p).1 ∧
    OnlyDirs fs (fs.createDirAll p).1 ∧
      ∀ d, (fs.createDirAll p).2 = some d → (fs.createDirAll p).1.canonicalize p = some d ∧
        (fs.createDirAll p).1.node? d = some .dir := by
  obtain ⟨hext, hdirs, hwalk⟩ := makeDirs_spec (components p) fs (startOf fs.cwd p)
  refine ⟨hext, hdirs, fun d hd => ?_⟩
  obtain ⟨hw, hdir⟩ := hwalk d hd
  refine ⟨?_, hdir⟩
  unfold canonicalize
  rw [show (fs.createDirAll p).1.cwd = fs.cwd from hext.cwd]
  exact hw

/-- A directory that has been made need not be made again. -/
theorem createDirAll_again {g : FileSystem} {p : Str} {e : Loc}
    (h : fs.createDirAll p = (g, some e)) : g.createDirAll p = (g, some e) := by
  obtain ⟨hext, -, hwalk⟩ := createDirAll_spec fs p
  rw [h] at hext hwalk
  obtain ⟨hw, hdir⟩ := hwalk e rfl
  have hmade : g.makeDirs (startOf g.cwd p) (components p ++ []) = g.makeDirs e [] :=
    makeDirs_of_walk hw
  rw [List.append_nil] at hmade
  exact hmade.trans (by rw [makeDirs, if_pos hdir])

/-- What is below a new directory can be made. -/
theorem makeDirs_below : ∀ {cs : List Str} {fs : FileSystem} {cur : Loc},
    (∀ c ∈ cs, PlainName c) → fs.node? cur = some .dir →
    (∀ c, fs.node? (cur ++ [c]) = none) → ∃ d, (fs.makeDirs cur cs).2 = some d
  | [], fs, cur, _, hdir, _ => ⟨cur, by unfold makeDirs; rw [if_pos hdir]⟩
  | c :: cs, fs, cur, hplain, hdir, hnone => by
    obtain ⟨hc, hcs⟩ := List.forall_mem_cons.mp hplain
    have hf : fs.Free cur c := ⟨hdir, hc, hnone c⟩
    unfold makeDirs makeStep
    rw [dif_pos hf]
    refine makeDirs_below hcs (node?_add_self hf) ?_
    intro c'
    rw [node?_add_ne hf (by simp)]
    exact none_below (by simp [hnone c]) c'

/-- Without `..` either all directories can be made, or none is. -/
theorem makeDirs_none : ∀ {cs : List Str} {cur : Loc}, (∀ c ∈ cs, PlainName c) →
    (fs.makeDirs cur cs).2 = none → (fs.makeDirs cur cs).1 = fs
  | [], cur, _, _ => rfl
  | c :: cs, cur, hplain, h => by
    obtain ⟨-, hcs⟩ := List.forall_mem_cons.mp hplain
    unfold makeDirs makeStep at h ⊢
    by_cases hf : fs.Free cur c
    · rw [dif_pos hf] at h
      obtain ⟨d, hd⟩ := makeDirs_below hcs (node?_add_self (x := .dir) hf) (fun c' => by
        rw [node?_add_ne hf (by simp)]
        exact none_below (by simp [hf.2.2]) c')
      rw [show (FileSystem.makeDirs (fs.add cur c .dir hf) (cur ++ [c]) cs).2 = none from h] at hd
      exact absurd hd (by simp)
    · rw [dif_neg hf] at h ⊢
      cases hs : fs.step fs.follow cur c with
      | none => rfl
      | some e =>
        rw [hs] at h
        exact makeDirs_none hcs h

theorem plain_of_components {p c : Str} (h : c ∈ components p) (hdots : c ≠ ['.', '.']) :
    PlainName c := by
  unfold components at h
  obtain ⟨hmem, hc⟩ := List.mem_filter.mp h
  simp only [Bool.and_eq_true, bne_iff_ne] at hc
  exact ⟨hc.1, notMem_of_mem_splitOn hmem, hc.2, hdots⟩

/-! ## A link to a device -/

/-- `g'` has a link at `p` that leads to the device at `q` or nowhere, and is `g` but for
that. -/
structure Blinds (g g' : FileSystem) (p q : Loc) (t : Str) : Prop where
  cwd : g'.cwd = g.cwd
  free : g.node? p = none
  link : g'.node? p = some (.symlink t)
  other : ∀ r, r ≠ p → g'.node? r = g.node? r
  keys : g.nodes.keys = g'.nodes.keys.filter (· ≠ p)
  device : g'.node? q = some .device
  leads : ∀ {n cur r}, g'.resolve n (startOf cur t) (components t) = some r → r = q

namespace Blinds

variable {g g' : FileSystem} {p q : Loc} {t : Str}

theorem ext (h : Blinds g g' p q t) : Extends g g' where
  cwd := h.cwd
  node := by
    intro r x hx
    rw [h.other r]
    · exact hx
    · intro he
      rw [he, h.free] at hx
      exact absurd hx (by simp)

/-- A path that is resolved with the link is resolved without it, or ends at the device. -/
theorem foldlM_step (h : Blinds g g' p q t) {next next' : Loc → List Str → Option Loc}
    (hnext : ∀ cur cs r, next' cur cs = some r → next cur cs = some r ∨ r = q)
    (hlink : ∀ cur r, next' (startOf cur t) (components t) = some r → r = q) :
    ∀ {cs : List Str} {cur r : Loc}, cs.foldlM (g'.step next') cur = some r →
      cs.foldlM (g.step next) cur = some r ∨ r = q
  | [], cur, r, hr => Or.inl hr
  | c :: cs, cur, r, hr => by
    rw [List.foldlM_cons] at hr ⊢
    obtain ⟨a, ha, hr⟩ := Option.bind_eq_some_iff.mp hr
    have hstep : g.step next cur c = some a ∨ a = q := by
      unfold step at ha ⊢
      by_cases hdir : g'.node? cur = some .dir
      · have hcur : cur ≠ p := by
          rintro rfl
          rw [h.link] at hdir
          exact absurd hdir (by simp)
        rw [if_neg (not_not.mpr hdir)] at ha
        rw [if_neg (not_not.mpr ((h.other cur hcur).symm.trans hdir))]
        by_cases hc : c = ['.', '.']
        · rw [if_pos hc] at ha ⊢
          exact Or.inl ha
        · rw [if_neg hc] at ha ⊢
          by_cases hp : cur ++ [c] = p
          · rw [hp, h.link] at ha
            exact Or.inr (hlink cur a ha)
          · rw [h.other _ hp] at ha
            cases hx : g.node? (cur ++ [c]) with
            | none =>
              rw [hx] at ha
              exact absurd ha (by simp)
            | some x =>
              rw [hx] at ha
              cases x with
              | symlink s => exact hnext _ _ a ha
              | file _ => exact Or.inl ha
              | dir => exact Or.inl ha
              | device => exact Or.inl ha
      · rw [if_pos hdir] at ha
        exact absurd ha (by simp)
    cases hstep with
    | inl ha' => exact (foldlM_step h hnext hlink hr).imp_left fun hr =>
        Option.bind_eq_some_iff.mpr ⟨a, ha', hr⟩
    | inr ha' =>
      subst ha'
      -- nothing is below a device
      cases cs with
      | nil => exact Or.inr (Option.some.inj hr).symm
      | cons c' cs' =>
        rw [List.foldlM_cons] at hr
        obtain ⟨b, hb, -⟩ := Option.bind_eq_some_iff.mp hr
        have hdev := (step_spec hb).1
        rw [h.device] at hdev
        exact absurd hdev (by simp)

theorem resolve (h : Blinds g g' p q t) : ∀ {n : Nat} {cur r : Loc} {cs : List Str},
    g'.resolve n cur cs = some r → g.resolve n cur cs = some r ∨ r = q
  | 0, _, _, _, hr => h.foldlM_step (fun _ _ _ hr => absurd hr (by simp))
      (fun _ _ hr => absurd hr (by simp)) hr
  | n + 1, _, _, _, hr => by
    have hnext : ∀ cur cs r, g'.resolve n cur cs = some r → g.resolve n cur cs = some r ∨ r = q :=
      fun _ _ _ hr => resolve h hr
    exact h.foldlM_step hnext (fun _ _ hr => h.leads hr) hr

theorem canonicalize (h : Blinds g g' p q t) {path : Str} {r : Loc}
    (hr : g'.canonicalize path = some r) : g.canonicalize path = some r ∨ r = q := by
  unfold FileSystem.canonicalize at hr ⊢
  rw [h.cwd] at hr
  have hnext : ∀ cur cs r, g'.follow cur cs = some r → g.follow cur cs = some r ∨ r = q :=
    fun _ _ _ hr => h.resolve hr
  exact h.foldlM_step hnext (fun _ _ hr => h.leads hr) hr

/-- A path to a file or a directory leads there without the link. -/
theorem stat (h : Blinds g g' p q t) {path : Str} {x : Node} (hx : g'.stat path = some x)
    (hdevice : x ≠ .device) (hlink : ∀ s, x ≠ .symlink s) : g.stat path = some x := by
  obtain ⟨r, hr, hx⟩ := Option.bind_eq_some_iff.mp hx
  have hrp : r ≠ p := by
    rintro rfl
    rw [h.link] at hx
    exact hlink t (Option.some.inj hx).symm
  cases h.canonicalize hr with
  | inl hr' => exact Option.bind_eq_some_iff.mpr ⟨r, hr', (h.other r hrp).symm.trans hx⟩
  | inr hq =>
    rw [hq, h.device] at hx
    exact absurd (Option.some.inj hx).symm hdevice

theorem stat_file (h : Blinds g g' p q t) {path : Str} {text : Option Str} :
    g'.stat path = some (.file text) ↔ g.stat path = some (.file text) := by
  constructor
  · intro hx
    exact h.stat hx (by simp) (by simp)
  · intro hx
    obtain ⟨r, hr, hx⟩ := Option.bind_eq_some_iff.mp hx
    exact Option.bind_eq_some_iff.mpr ⟨r, canonicalize_mono h.ext hr, h.ext.node hx⟩

theorem isFile (h : Blinds g g' p q t) (path : Str) : g'.isFile path = g.isFile path := by
  have hiff : g'.isFile path = true ↔ g.isFile path = true := by
    have hfile : ∀ fs : FileSystem, fs.isFile path = true ↔ ∃ text, fs.stat path = some (.file text) := by
      intro fs
      unfold FileSystem.isFile
      cases fs.stat path with
      | none => simp
      | some x => cases x <;> simp
    rw [hfile, hfile]
    exact exists_congr fun text => h.stat_file
  exact Bool.eq_iff_iff.mpr hiff

theorem readToString (h : Blinds g g' p q t) (path : Str) :
    g'.readToString path = g.readToString path := by
  have hread : ∀ (fs : FileSystem) (s : Str), fs.readToString path = some s ↔
      fs.stat path = some (.file (some s)) := by
    intro fs s
    unfold FileSystem.readToString
    cases fs.stat path with
    | none => simp
    | some x => cases x <;> simp
  refine Option.ext fun s => ?_
  rw [hread, hread]
  exact h.stat_file

/-- The same directories can be read, with the same names but for that of the link. -/
theorem readDir (h : Blinds g g' p q t) (keep : Str → Bool)
    (hkeep : ∀ name, p.getLast? = some name → keep name = false) (path : Str) :
    ((g'.readDir path).map fun es => (es.map Prod.fst).filter keep) =
      (g.readDir path).map fun es => (es.map Prod.fst).filter keep := by
  have hread : ∀ fs : FileSystem, ((fs.readDir path).map fun es => (es.map Prod.fst).filter keep) =
      (fs.canonicalize path).bind fun d =>
        if fs.node? d = some .dir then some ((fs.names d).filter keep) else none := by
    intro fs
    unfold FileSystem.readDir
    cases fs.canonicalize path with
    | none => rfl
    | some d =>
      rw [Option.bind_some]
      simp only
      split
      next =>
        have hnames : ((fs.names d).filterMap fun name => (fs.node? (d ++ [name])).map fun x =>
            (name, x)).map Prod.fst = fs.names d := by
          rw [List.map_filterMap]
          refine (List.filterMap_congr (g := some) ?_).trans List.filterMap_some
          intro name hname
          obtain ⟨x, hx⟩ := Option.ne_none_iff_exists'.mp (mem_names.mp hname)
          rw [hx]
          rfl
        rw [Option.map_some, hnames]
      next => rfl
  have hnames : ∀ d, (g'.names d).filter keep = (g.names d).filter keep := by
    intro d
    unfold names
    rw [h.keys]
    have herase : ∀ l : List Loc,
        (l.filterMap fun r => if r.dropLast = d then r.getLast? else none).filter keep =
        ((l.filter (· ≠ p)).filterMap fun r =>
          if r.dropLast = d then r.getLast? else none).filter keep := by
      intro l
      induction l with
      | nil => rfl
      | cons r l ih =>
        by_cases hr : r = p
        · subst hr
          rw [List.filter_cons_of_neg (by simp), List.filterMap_cons, ← ih]
          split
          next => rfl
          next name hname =>
            have hlast : r.getLast? = some name := by
              split at hname
              next => exact hname
              next => exact absurd hname (by simp)
            rw [List.filter_cons_of_neg (by simp [hkeep name hlast])]
        · rw [List.filter_cons_of_pos (by simpa using hr), List.filterMap_cons,
            List.filterMap_cons]
          split
          next => exact ih
          next => rw [List.filter_cons, List.filter_cons, ih]
    exact herase _
  rw [hread, hread]
  cases hc : g'.canonicalize path with
  | none =>
    cases hc' : g.canonicalize path with
    | none => rfl
    | some d =>
      rw [canonicalize_mono h.ext hc'] at hc
      exact absurd hc (by simp)
  | some d =>
    cases h.canonicalize hc with
    | inl hc' =>
      rw [hc', Option.bind_some, Option.bind_some]
      by_cases hd : d = p
      · rw [hd, h.link, h.free, if_neg (by simp), if_neg (by simp)]
      · rw [h.other d hd, hnames]
    | inr hq =>
      subst hq
      rw [Option.bind_some, if_neg (by simp [h.device])]
      cases hc' : g.canonicalize path with
      | none => rfl
      | some d' =>
        have hd' := canonicalize_mono h.ext hc'
        rw [hc] at hd'
        obtain rfl := Option.some.inj hd'
        rw [Option.bind_some]
        by_cases hd : d = p
        · rw [hd, h.free, if_neg (by simp)]
        · rw [← h.other d hd, h.device, if_neg (by simp)]

end Blinds

end FileSystem

end Systeml.Lib
