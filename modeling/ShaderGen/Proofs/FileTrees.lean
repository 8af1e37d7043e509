import Mathlib.Tactic.SplitIfs
import ShaderGen.CommandLine.FileTree

/-!
Files by their places. A place is a list of names from the root on, and `look` tells what
is there: nothing, a directory, or a file with its text. Following a path asks for no more
than that, so it is retraced on places (`stepPlace`, `walkPlace`) and the nodes on a trail
can be forgotten. A path that was followed passed through directories, which writing a
file never takes away: what was reached once is reached after any number of writes, and a
text changes only at the place that was written.
-/

namespace ShaderGen.CommandLine

namespace FileNode

variable {node new : FileNode} {name : String} {place : List String}

/-- What there is at a place below a node: nothing, a directory, or a text. -/
def look (node : FileNode) (place : List String) : Option (Option String) :=
  (node.below? place).map text?

theorem isDirectory_iff : node.isDirectory = true ↔ node.text? = none := by
  cases node <;> simp [isDirectory, text?]

theorem look_nil (node : FileNode) : node.look [] = some node.text? := rfl

theorem look_cons (node : FileNode) (name : String) (place : List String) :
    node.look (name :: place) = (node.child? name).bind fun child => child.look place := by
  rw [look, below?]
  cases node.child? name <;> rfl

/-- Only a directory holds anything. -/
theorem isDirectory_of_child? {child : FileNode} (h : node.child? name = some child) :
    node.isDirectory = true := by
  cases node with
  | file text => cases h
  | directory entries => rfl

theorem below?_append (node : FileNode) (a b : List String) :
    node.below? (a ++ b) = (node.below? a).bind fun n => n.below? b := by
  induction a generalizing node with
  | nil => rfl
  | cons name a ih =>
    rw [List.cons_append, below?, below?]
    cases node.child? name with
    | none => rfl
    | some child => exact ih child

/-- A node without children put under a name of a directory, where no directory was. -/
theorem look_withChild (hnew : ∀ name, new.child? name = none) (hdir : node.isDirectory = true)
    (hfree : node.look [name] ≠ some none) (place : List String) :
    (node.withChild name new).look place =
      if place = [name] then some new.text? else node.look place := by
  cases place with
  | nil =>
    rw [if_neg (by simp), look_nil, look_nil, isDirectory_iff.mp hdir]
    rfl
  | cons other place =>
    rw [look_cons, look_cons, child?_withChild]
    by_cases hother : other = name
    · subst hother
      cases place with
      | nil => simp [look_nil]
      | cons below place =>
        -- nothing is below the new node, and nothing was below the old one
        have hold : ((node.child? other).bind fun child => child.look (below :: place)) = none := by
          cases hchild : node.child? other with
          | none => rfl
          | some child =>
            rw [look_cons, hchild, Option.bind_some, look_nil, Ne, Option.some.injEq,
              ← isDirectory_iff] at hfree
            rw [Option.bind_some, look_cons]
            cases hbelow : child.child? below with
            | none => rfl
            | some _ => exact absurd (isDirectory_of_child? hbelow) hfree
        rw [if_pos rfl, Option.bind_some, look_cons, hnew, hold]
        simp
    · simp [hother]

/-- A node without children put into a directory, where no directory was: that is what is
there then, and everything else stays. -/
theorem look_plant (hnew : ∀ name, new.child? name = none) {parent : List String}
    (hparent : node.look parent = some none) (hfree : node.look (parent ++ [name]) ≠ some none)
    (place : List String) : (plant new node (parent ++ [name])).look place =
      if place = parent ++ [name] then some new.text? else node.look place := by
  induction parent generalizing node place with
  | nil =>
    have hdir : node.isDirectory = true := isDirectory_iff.mpr (Option.some.inj hparent)
    exact look_withChild hnew hdir hfree place
  | cons first parent ih =>
    rw [look_cons] at hparent
    obtain ⟨child, hchild, hrest⟩ := Option.bind_eq_some_iff.mp hparent
    rw [List.cons_append, look_cons, hchild] at hfree
    cases place with
    | nil =>
      rw [if_neg (by simp), look_nil, look_nil,
        isDirectory_iff.mp (isDirectory_of_child? hchild)]
      rfl
    | cons other place =>
      rw [List.cons_append, plant, look_cons, look_cons, child?_withChild, hchild]
      by_cases hother : other = first
      · subst hother
        simp only [if_true, Option.bind_some, Option.getD_some, hchild, List.cons.injEq, true_and]
        exact ih hrest hfree place
      · simp [hother]

end FileNode

namespace FileTree

variable {t t' : FileTree} {trail trail' : Trail} {path name text : String}
  {names place dir : List String}

/-- What there is at a place: nothing, a directory, or a text. -/
def look (t : FileTree) (place : List String) : Option (Option String) := t.root.look place

/-! ### Following names by places -/

/-- Follows one name from a place. -/
def stepPlace (t : FileTree) (place : List String) (name : String) :
    Except FileError (List String) :=
  if t.look place ≠ some none then .error .notADirectory
  else if Path.isHere name then .ok place
  else if name == ".." then .ok place.dropLast
  else if Path.nameLimit < name.utf8ByteSize then .error .nameTooLong
  else match t.look (place ++ [name]) with
    | some _ => .ok (place ++ [name])
    | none => .error .notFound

/-- Only where a directory holds nothing of a name is it not found. -/
theorem stepPlace_eq_notFound (h : t.stepPlace place name = .error .notFound) :
    t.look place = some none ∧ t.look (place ++ [name]) = none := by
  unfold stepPlace at h
  split_ifs at h with hdir
  · cases h
  · cases h
  · cases hchild : t.look (place ++ [name]) with
    | none => exact ⟨Decidable.not_not.mp hdir, rfl⟩
    | some _ =>
      rw [hchild] at h
      cases h

/-- Follows names from a place. -/
def walkPlace (t : FileTree) (place names : List String) : Except FileError (List String) :=
  names.foldlM t.stepPlace place

/-- The nodes of a trail are those of the tree. -/
def Leads (t : FileTree) : Trail → Prop
  | [] => True
  | (name, node) :: trail => t.Leads trail ∧ (t.reached trail).child? name = some node

theorem names_cons (name : String) (node : FileNode) (trail : Trail) :
    Trail.names ((name, node) :: trail) = trail.names ++ [name] := by
  simp [Trail.names]

theorem names_tail (trail : Trail) : Trail.names trail.tail = trail.names.dropLast := by
  cases trail with
  | nil => rfl
  | cons entry trail => simp [Trail.names]

theorem Leads.tail (h : t.Leads trail) : t.Leads trail.tail := by
  cases trail with
  | nil => trivial
  | cons entry trail => exact h.1

theorem Leads.below? (h : t.Leads trail) : t.root.below? trail.names = some (t.reached trail) := by
  induction trail with
  | nil => rfl
  | cons entry trail ih =>
    rw [names_cons, FileNode.below?_append, ih h.1, Option.bind_some, FileNode.below?, h.2]
    rfl

theorem Leads.look (h : t.Leads trail) : t.look trail.names = some (t.reached trail).text? := by
  rw [FileTree.look, FileNode.look, h.below?]
  rfl

theorem Leads.look_child (h : t.Leads trail) (name : String) :
    t.look (trail.names ++ [name]) = ((t.reached trail).child? name).map FileNode.text? := by
  rw [FileTree.look, FileNode.look, FileNode.below?_append, h.below?, Option.bind_some,
    FileNode.below?]
  cases (t.reached trail).child? name <;> rfl

/-- A name is followed as the places say. -/
theorem step_place (h : t.Leads trail) (name : String) :
    Trail.names <$> t.step trail name = t.stepPlace trail.names name ∧
      ∀ trail', t.step trail name = .ok trail' → t.Leads trail' := by
  have hlook := h.look
  unfold step stepPlace
  cases hdir : (t.reached trail).isDirectory with
  | false =>
    have hfile : t.look trail.names ≠ some none := by
      rw [hlook, Ne, Option.some.injEq, ← FileNode.isDirectory_iff, hdir]
      exact Bool.false_ne_true
    rw [if_pos hfile]
    refine ⟨rfl, fun trail' heq => ?_⟩
    cases heq
  | true =>
    rw [FileNode.isDirectory_iff.mp hdir] at hlook
    have hdirectory : ¬ t.look trail.names ≠ some none := fun hne => hne hlook
    rw [if_neg (show ¬ (!true) = true by simp), if_neg hdirectory]
    split_ifs
    · refine ⟨rfl, fun trail' heq => ?_⟩
      cases heq
      exact h
    · refine ⟨congrArg Except.ok (names_tail trail), fun trail' heq => ?_⟩
      cases heq
      exact h.tail
    · refine ⟨rfl, fun trail' heq => ?_⟩
      cases heq
    · rw [h.look_child]
      cases hchild : (t.reached trail).child? name with
      | none =>
        refine ⟨rfl, fun trail' heq => ?_⟩
        cases heq
      | some child =>
        refine ⟨congrArg Except.ok (names_cons name child trail), fun trail' heq => ?_⟩
        cases heq
        exact ⟨h, hchild⟩

theorem walk_place (h : t.Leads trail) (names : List String) :
    Trail.names <$> t.walk trail names = t.walkPlace trail.names names ∧
      ∀ trail', t.walk trail names = .ok trail' → t.Leads trail' := by
  induction names generalizing trail with
  | nil =>
    refine ⟨rfl, fun trail' heq => ?_⟩
    cases heq
    exact h
  | cons name names ih =>
    obtain ⟨hstep, hleads⟩ := step_place h name
    unfold walk walkPlace at ih ⊢
    rw [List.foldlM_cons, List.foldlM_cons, ← hstep]
    cases hone : t.step trail name with
    | error e =>
      refine ⟨rfl, fun trail' heq => ?_⟩
      cases heq
    | ok trail₁ => exact ih (hleads trail₁ hone)

/-- The place from which a path is followed. -/
def startPlace (t : FileTree) (path : String) : List String :=
  if Path.isAbsolute path then [] else (t.walkPlace [] t.workingDirectory).toOption.getD []

theorem start_place (t : FileTree) (path : String) :
    t.Leads (t.start path) ∧ (t.start path).names = t.startPlace path := by
  unfold start startPlace
  obtain ⟨hwalk, hleads⟩ := walk_place (show t.Leads [] from trivial) t.workingDirectory
  split_ifs
  · exact ⟨trivial, rfl⟩
  · rw [show Trail.names [] = [] from rfl] at hwalk
    rw [← hwalk]
    cases hrun : t.walk [] t.workingDirectory with
    | error e => exact ⟨trivial, rfl⟩
    | ok trail => exact ⟨hleads trail hrun, rfl⟩

/-! ### Files to be written -/

/-- The place to which a path leads for writing: the last name may be missing, and
where it is there it is no directory. -/
def target (t : FileTree) (path : String) : Except FileError (List String) := do
  admits path
  match ← t.entry (t.start path) (Path.split path) with
  | (_, some (.directory _)) => .error .isADirectory
  | (place, _) => .ok place

theorem write_eq (t : FileTree) (path text : String) :
    t.write path text = (fun place => t.plant place (.file text)) <$> t.target path := by
  unfold write target
  cases admits path with
  | error e => rfl
  | ok _ =>
    simp only [bind, Except.bind]
    cases t.entry (t.start path) (Path.split path) with
    | error e => rfl
    | ok found =>
      obtain ⟨place, _ | _ | _⟩ := found <;> rfl

/-- The target of a path by places. -/
theorem target_eq (t : FileTree) (path : String) : t.target path = (do
    admits path
    let dir ← t.walkPlace (t.startPlace path) (Path.split path).dropLast
    let name := (Path.split path).getLastD ""
    match t.stepPlace dir name with
    | .ok place => if t.look place = some none then .error .isADirectory else .ok place
    | .error .notFound => .ok (dir ++ [name])
    | .error e => .error e) := by
  obtain ⟨hstart, hnames⟩ := t.start_place path
  obtain ⟨hwalk, hleads⟩ := walk_place hstart (Path.split path).dropLast
  unfold target entry
  rw [← hnames, ← hwalk]
  cases admits path with
  | error e => rfl
  | ok _ =>
    simp only [bind, Except.bind]
    cases hrun : t.walk (t.start path) (Path.split path).dropLast with
    | error e => rfl
    | ok trail =>
      obtain ⟨hstep, hleads'⟩ := step_place (hleads trail hrun) ((Path.split path).getLastD "")
      simp only [Functor.map, Except.map] at hstep ⊢
      rw [← hstep]
      cases hone : t.step trail ((Path.split path).getLastD "") with
      | error e => cases e <;> rfl
      | ok trail' =>
        dsimp only
        rw [(hleads' trail' hone).look]
        cases t.reached trail' <;> simp [FileNode.text?]

/-! ### Growing trees -/

/-- A tree holds what another one held, directories as directories, and has the same
working directory. -/
structure Grows (t t' : FileTree) : Prop where
  home : t'.workingDirectory = t.workingDirectory
  directory : ∀ place, t.look place = some none → t'.look place = some none
  there : ∀ place, t.look place ≠ none → t'.look place ≠ none

theorem Grows.refl (t : FileTree) : Grows t t := ⟨rfl, fun _ h => h, fun _ h => h⟩

theorem Grows.trans {t'' : FileTree} (h : Grows t t') (h' : Grows t' t'') : Grows t t'' where
  home := h'.home.trans h.home
  directory place hd := h'.directory place (h.directory place hd)
  there place hd := h'.there place (h.there place hd)

theorem stepPlace_of_grows (h : Grows t t') {place' : List String}
    (hstep : t.stepPlace place name = .ok place') : t'.stepPlace place name = .ok place' := by
  unfold stepPlace at hstep ⊢
  by_cases hdir : t.look place = some none
  · rw [if_neg (fun hne => hne hdir)] at hstep
    rw [if_neg (fun hne => hne (h.directory place hdir))]
    split_ifs at hstep ⊢
    · exact hstep
    · exact hstep
    · have hthere := h.there (place ++ [name])
      cases hchild : t.look (place ++ [name]) with
      | none =>
        rw [hchild] at hstep
        cases hstep
      | some _ =>
        rw [hchild] at hstep hthere
        obtain ⟨_, hchild'⟩ := Option.ne_none_iff_exists'.mp (hthere (Option.some_ne_none _))
        rw [hchild']
        exact hstep
  · rw [if_pos hdir] at hstep
    cases hstep

/-- What was reached is reached. -/
theorem walkPlace_of_grows (h : Grows t t') {place' : List String}
    (hwalk : t.walkPlace place names = .ok place') : t'.walkPlace place names = .ok place' := by
  induction names generalizing place with
  | nil => exact hwalk
  | cons name names ih =>
    unfold walkPlace at hwalk ih ⊢
    rw [List.foldlM_cons] at hwalk ⊢
    cases hstep : t.stepPlace place name with
    | error e =>
      rw [hstep] at hwalk
      cases hwalk
    | ok next =>
      rw [hstep] at hwalk
      rw [stepPlace_of_grows h hstep]
      exact ih hwalk

/-- A path starts at the root, or in a working directory that is there. -/
def Starts (t : FileTree) (path : String) : Prop :=
  Path.isAbsolute path = true ∨ ∃ place, t.walkPlace [] t.workingDirectory = .ok place

theorem Starts.of_grows (h : Grows t t') (hstart : t.Starts path) :
    t'.Starts path ∧ t'.startPlace path = t.startPlace path := by
  unfold startPlace
  rcases hstart with habs | ⟨place, hplace⟩
  · exact ⟨.inl habs, by rw [if_pos habs, if_pos habs]⟩
  · have hplace' : t'.walkPlace [] t'.workingDirectory = .ok place := by
      rw [h.home]
      exact walkPlace_of_grows h hplace
    exact ⟨.inr ⟨place, hplace'⟩, by rw [hplace, hplace']⟩

/-- A node without children is put into a directory, where no directory was. -/
theorem grows_plant {new : FileNode} (hnew : ∀ name, new.child? name = none)
    (hdir : t.look dir = some none) (hfree : t.look (dir ++ [name]) ≠ some none) :
    Grows t (t.plant (dir ++ [name]) new) ∧ ∀ place, (t.plant (dir ++ [name]) new).look place =
      if place = dir ++ [name] then some new.text? else t.look place := by
  have hlook : ∀ place, (t.plant (dir ++ [name]) new).look place =
      if place = dir ++ [name] then some new.text? else t.look place :=
    FileNode.look_plant hnew hdir hfree
  refine ⟨⟨rfl, fun place h => ?_, fun place h => ?_⟩, hlook⟩
  · rw [hlook, if_neg]
    · exact h
    · rintro rfl
      exact hfree h
  · rw [hlook]
    split_ifs
    · exact Option.some_ne_none _
    · exact h

theorem child?_file (text name : String) : (FileNode.file text).child? name = none := rfl

theorem child?_empty (name : String) : (FileNode.directory []).child? name = none := rfl

/-- Making a directory takes nothing away. -/
theorem grows_make (h : t.make path = .ok t') : Grows t t' := by
  unfold make entry at h
  obtain ⟨hstart, -⟩ := t.start_place path
  cases hadmits : admits path with
  | error e =>
    rw [hadmits] at h
    cases h
  | ok _ =>
  rw [hadmits] at h
  simp only [bind, Except.bind] at h
  generalize ((Path.split path).reverse.dropWhile String.isEmpty).reverse = names at h
  obtain ⟨-, hleads⟩ := walk_place hstart names.dropLast
  cases hwalk : t.walk (t.start path) names.dropLast with
  | error e =>
    rw [hwalk] at h
    cases h
  | ok trail =>
  obtain ⟨hplace, -⟩ := step_place (hleads trail hwalk) (names.getLastD "")
  rw [hwalk] at h
  dsimp only at h
  cases hstep : t.step trail (names.getLastD "") with
  | ok trail' =>
    rw [hstep] at h
    cases h
  | error e =>
    cases e with
    | notFound =>
      rw [hstep] at h hplace
      cases h
      obtain ⟨hdir, hmissing⟩ := stepPlace_eq_notFound hplace.symm
      refine (grows_plant child?_empty hdir ?_).1
      rw [hmissing]
      exact (Option.some_ne_none _).symm
    | _ =>
      rw [hstep] at h
      cases h

end FileTree

/-! ### Entries of a directory -/

namespace Path

variable {name : String}

/-- A name that leads to an entry of a directory and nowhere else. -/
structure Plain (name : String) : Prop where
  slash : '/' ∉ name.toList
  here : isHere name = false
  above : (name == "..") = false
  short : name.utf8ByteSize ≤ nameLimit

theorem pieces_ne_nil (cs : List Char) : pieces cs ≠ [] := by
  cases cs with
  | nil => simp [pieces]
  | cons c cs =>
    unfold pieces
    split_ifs
    · simp
    · split <;> simp

theorem pieces_of_not_mem {cs : List Char} (h : '/' ∉ cs) : pieces cs = [cs] := by
  induction cs with
  | nil => rfl
  | cons c cs ih =>
    rw [List.mem_cons, not_or] at h
    rw [pieces, if_neg (Ne.symm h.1), ih h.2]

/-- A slash ends a piece. -/
theorem pieces_append (cs ds : List Char) : pieces (cs ++ '/' :: ds) = pieces cs ++ pieces ds := by
  induction cs with
  | nil => simp [pieces]
  | cons c cs ih =>
    rw [List.cons_append, pieces, pieces]
    split_ifs
    · rw [ih, List.cons_append]
    · rw [ih]
      cases hcs : pieces cs with
      | nil => exact absurd hcs (pieces_ne_nil cs)
      | cons piece rest => rfl

/-- The pieces that lead to a directory; a slash at the end does not count. -/
def base (out : String) : List String :=
  if out.isEmpty || out.toList.getLast? == some '/' then (split out).dropLast else split out

theorem split_of_plain (h : Plain name) : split name = [name] := by
  rw [split, pieces_of_not_mem h.slash, List.map_singleton, String.ofList_toList]

/-- The path of an entry leads to the directory and then to the name. -/
theorem split_entry (out : String) (h : Plain name) :
    split (entry out name) = base out ++ [name] := by
  have hname : pieces name.toList = [name.toList] := pieces_of_not_mem h.slash
  unfold entry base
  by_cases hempty : out.isEmpty = true
  · obtain rfl := String.isEmpty_iff.mp hempty
    rw [if_pos (by rfl), if_pos (by rfl), String.empty_append, split_of_plain h]
    rfl
  by_cases hslash : out.toList.getLast? = some '/'
  · obtain ⟨cs, hcs⟩ := List.getLast?_eq_some_iff.mp hslash
    rw [if_pos (by simp [hslash]), if_pos (by simp [hslash])]
    have hout : pieces out.toList = pieces cs ++ [[]] := by rw [hcs, pieces_append, pieces]
    rw [split, split, String.toList_append, hout, hcs, List.append_assoc, List.singleton_append,
      pieces_append, hname]
    simp
  · have hplain : ¬ (out.isEmpty || out.toList.getLast? == some '/') = true := by
      simp [hempty, hslash]
    rw [if_neg hplain, if_neg hplain, split, split, String.toList_append, String.toList_append,
      List.append_assoc, show "/".toList = ['/'] from rfl, List.singleton_append, pieces_append,
      hname]
    simp

theorem isAbsolute_entry (out : String) (h : Plain name) :
    isAbsolute (entry out name) = isAbsolute out := by
  unfold entry isAbsolute
  by_cases hempty : out.isEmpty = true
  · obtain rfl := String.isEmpty_iff.mp hempty
    rw [if_pos (by rfl), String.empty_append]
    cases hname : name.toList with
    | nil => rfl
    | cons c cs =>
      have hc : c ≠ '/' := by
        rintro rfl
        exact h.slash (by simp [hname])
      simp [hc]
  · obtain ⟨c, cs, hout⟩ : ∃ c cs, out.toList = c :: cs := by
      cases hout : out.toList with
      | nil => exact absurd (String.isEmpty_iff.mpr (String.toList_eq_nil_iff.mp hout)) hempty
      | cons c cs => exact ⟨c, cs, rfl⟩
    split_ifs
    · rw [String.toList_append, hout]
      rfl
    · rw [String.toList_append, String.toList_append, hout]
      rfl

end Path

namespace FileTree

variable {t t' : FileTree} {name : String} {dir : List String}

theorem startPlace_entry (t : FileTree) (out : String) (hname : Path.Plain name) :
    t.startPlace (Path.entry out name) = t.startPlace out := by
  unfold startPlace
  rw [Path.isAbsolute_entry out hname]

theorem stepPlace_of_plain (hname : Path.Plain name) (hdir : t.look dir = some none) :
    t.stepPlace dir name = if t.look (dir ++ [name]) = none then .error .notFound
      else .ok (dir ++ [name]) := by
  unfold stepPlace
  rw [if_neg (fun hne => hne hdir), if_neg (by simp [hname.here]), if_neg (by simp [hname.above]),
    if_neg (Nat.not_lt.mpr hname.short)]
  cases t.look (dir ++ [name]) <;> rfl

/-- The target of an entry is its name in the directory. -/
theorem target_entry (t : FileTree) (out : String) (hname : Path.Plain name) :
    t.target (Path.entry out name) = (do
      admits (Path.entry out name)
      let dir ← t.walkPlace (t.startPlace out) (Path.base out)
      if t.look dir ≠ some none then .error .notADirectory
      else if t.look (dir ++ [name]) = some none then .error .isADirectory
      else .ok (dir ++ [name])) := by
  rw [target_eq, Path.split_entry out hname, startPlace_entry t out hname, List.dropLast_concat,
    List.getLastD_concat]
  cases admits (Path.entry out name) with
  | error e => rfl
  | ok _ =>
  simp only [bind, Except.bind]
  cases t.walkPlace (t.startPlace out) (Path.base out) with
  | error e => rfl
  | ok dir =>
  dsimp only
  by_cases hdir : t.look dir = some none
  · have hdirectory : ¬ t.look dir ≠ some none := fun hne => hne hdir
    rw [stepPlace_of_plain hname hdir, if_neg hdirectory]
    by_cases hmissing : t.look (dir ++ [name]) = none
    · rw [if_pos hmissing, hmissing, if_neg (Option.some_ne_none _).symm]
    · rw [if_neg hmissing]
  · rw [if_pos hdir, stepPlace, if_pos hdir]

theorem target_entry_eq_ok {out : String} (hname : Path.Plain name) {place : List String} :
    t.target (Path.entry out name) = .ok place ↔ admits (Path.entry out name) = .ok () ∧
      ∃ dir, t.walkPlace (t.startPlace out) (Path.base out) = .ok dir ∧ t.look dir = some none ∧
        t.look (dir ++ [name]) ≠ some none ∧ place = dir ++ [name] := by
  rw [target_entry t out hname]
  cases admits (Path.entry out name) with
  | error e => simp [bind, Except.bind]
  | ok _ =>
  simp only [bind, Except.bind, true_and]
  cases t.walkPlace (t.startPlace out) (Path.base out) with
  | error e => simp
  | ok dir =>
    simp only [Except.ok.injEq, exists_eq_left']
    split_ifs with hdir hfree
    · simp [hdir]
    · simp [hfree]
    · simp [Decidable.not_not.mp hdir, hfree, eq_comm]

/-- A tree is written to: the entries of the directory lead to the same places, and the
texts of some of them are new. -/
structure Writes (out : String) (t : FileTree) (files : List (String × String)) (t' : FileTree) :
    Prop where
  grows : Grows t t'
  target : ∀ name, Path.Plain name →
    t'.target (Path.entry out name) = t.target (Path.entry out name)
  entries : ∀ file ∈ files, ∃ name, Path.Plain name ∧ file.1 = Path.entry out name
  texts : ∀ file ∈ files, ∃ place, t.target file.1 = .ok place ∧ t'.look place = some (some file.2)
  rest : ∀ place, (∀ file ∈ files, t.target file.1 ≠ .ok place) → t'.look place = t.look place

/-- A file is written under a name of the directory. -/
theorem writes_plant {out : String} (hstart : t.Starts out) (hname : Path.Plain name)
    {place : List String} (h : t.target (Path.entry out name) = .ok place) (text : String) :
    Writes out t [(Path.entry out name, text)] (t.plant place (.file text)) := by
  obtain ⟨hadmits, dir, hwalk, hdir, hfree, rfl⟩ := (target_entry_eq_ok hname).mp h
  obtain ⟨hgrows, hlook⟩ := grows_plant (child?_file text) hdir hfree
  refine ⟨hgrows, fun other hother => ?_, ?_, ?_, fun place hplace => ?_⟩
  · rw [target_entry _ out hother, target_entry t out hother, (hstart.of_grows hgrows).2,
      walkPlace_of_grows hgrows hwalk, hwalk]
    have hsame : (t.plant (dir ++ [name]) (.file text)).look (dir ++ [other]) = some none ↔
        t.look (dir ++ [other]) = some none := by
      rw [hlook]
      split_ifs with heq
      · rw [heq]
        exact iff_of_false (by simp [FileNode.text?]) hfree
      · exact Iff.rfl
    simp only [bind, Except.bind, hgrows.directory dir hdir, hdir, hsame]
  · simpa using ⟨name, hname, rfl⟩
  · simp [h, hlook, FileNode.text?]
  · rw [hlook, if_neg]
    rintro rfl
    exact hplace _ List.mem_cons_self h

theorem Writes.nil (out : String) (t : FileTree) : Writes out t [] t where
  grows := .refl t
  target _ _ := rfl
  entries := by simp
  texts := by simp
  rest _ _ := rfl

/-- Entries of different names lead to different places. -/
theorem target_ne {out path path' : String} {name name' : String} (hname : Path.Plain name)
    (hname' : Path.Plain name') (hpath : path = Path.entry out name)
    (hpath' : path' = Path.entry out name') (hne : path ≠ path') {place : List String}
    (h : t.target path = .ok place) : t.target path' ≠ .ok place := by
  subst hpath hpath'
  intro h'
  obtain ⟨-, dir, hwalk, -, -, rfl⟩ := (target_entry_eq_ok hname).mp h
  obtain ⟨-, dir', hwalk', -, -, heq⟩ := (target_entry_eq_ok hname').mp h'
  cases hwalk.symm.trans hwalk'
  exact hne (by rw [List.singleton_inj.mp (List.append_cancel_left heq)])

/-- More files are written, under other names. -/
theorem Writes.trans {out : String} {files files' : List (String × String)} {t'' : FileTree}
    (h : Writes out t files t') (h' : Writes out t' files' t'')
    (hne : ∀ file ∈ files, ∀ file' ∈ files', file.1 ≠ file'.1) :
    Writes out t (files ++ files') t'' where
  grows := h.grows.trans h'.grows
  target name hname := (h'.target name hname).trans (h.target name hname)
  entries file hfile := (List.mem_append.mp hfile).elim (h.entries file) (h'.entries file)
  texts file hfile := by
    rcases List.mem_append.mp hfile with hfile | hfile
    · obtain ⟨place, htarget, hlook⟩ := h.texts file hfile
      obtain ⟨name, hname, hpath⟩ := h.entries file hfile
      refine ⟨place, htarget, (h'.rest place fun file' hfile' => ?_).trans hlook⟩
      -- the later file has another name, so another place
      obtain ⟨name', hname', hpath'⟩ := h'.entries file' hfile'
      rw [hpath', h.target name' hname', ← hpath']
      exact target_ne hname hname' hpath hpath' (hne file hfile file' hfile') htarget
    · obtain ⟨place, htarget, hlook⟩ := h'.texts file hfile
      obtain ⟨name, hname, hpath⟩ := h'.entries file hfile
      rw [hpath, h.target name hname, ← hpath] at htarget
      exact ⟨place, htarget, hlook⟩
  rest place hplace := by
    refine (h'.rest place fun file hfile => ?_).trans
      (h.rest place fun file hfile => hplace file (List.mem_append_left _ hfile))
    obtain ⟨name, hname, hpath⟩ := h'.entries file hfile
    rw [hpath, h.target name hname, ← hpath]
    exact hplace file (List.mem_append_right _ hfile)

/-- A target that is there is reached by all of the path. -/
theorem walkPlace_of_target {path : String} {place : List String}
    (htarget : t.target path = .ok place) (hthere : t.look place ≠ none) :
    admits path = .ok () ∧ t.walkPlace (t.startPlace path) (Path.split path) = .ok place := by
  rw [target_eq] at htarget
  cases hadmits : admits path with
  | error e =>
    rw [hadmits] at htarget
    cases htarget
  | ok _ =>
  rw [hadmits] at htarget
  simp only [bind, Except.bind] at htarget
  cases hwalk : t.walkPlace (t.startPlace path) (Path.split path).dropLast with
  | error e =>
    rw [hwalk] at htarget
    cases htarget
  | ok dir =>
  rw [hwalk] at htarget
  dsimp only at htarget
  have hlast : t.stepPlace dir ((Path.split path).getLastD "") = .ok place := by
    cases hstep : t.stepPlace dir ((Path.split path).getLastD "") with
    | ok place' =>
      rw [hstep] at htarget
      dsimp only at htarget
      split_ifs at htarget
      rw [Except.ok.inj htarget]
    | error e =>
      cases e with
      | notFound =>
        -- nothing is where the name is missing
        rw [hstep] at htarget
        obtain rfl := Except.ok.inj htarget
        exact absurd (stepPlace_eq_notFound hstep).2 hthere
      | _ =>
        rw [hstep] at htarget
        cases htarget
  refine ⟨rfl, ?_⟩
  rcases List.eq_nil_or_concat (Path.split path) with hnil | ⟨names, name, hconcat⟩
  · exact absurd (List.map_eq_nil_iff.mp hnil) (Path.pieces_ne_nil _)
  · rw [hconcat, List.concat_eq_append, List.dropLast_concat] at hwalk
    rw [hconcat, List.concat_eq_append, List.getLastD_concat] at hlast
    unfold walkPlace at hwalk ⊢
    rw [hconcat, List.concat_eq_append, List.foldlM_append, hwalk]
    simp only [bind, Except.bind, List.foldlM_cons, List.foldlM_nil, hlast]
    rfl

/-- A text that is at the target of a path is read from that path. -/
theorem read_of_target {path text : String} {place : List String}
    (htarget : t.target path = .ok place) (hlook : t.look place = some (some text)) :
    t.read path = .ok text := by
  obtain ⟨hadmits, hall⟩ := walkPlace_of_target htarget (by rw [hlook]; exact Option.some_ne_none _)
  obtain ⟨hstart, hnames⟩ := t.start_place path
  obtain ⟨hplaces, hleads⟩ := walk_place hstart (Path.split path)
  rw [hnames, hall] at hplaces
  cases hrun : t.walk (t.start path) (Path.split path) with
  | error e =>
    rw [hrun] at hplaces
    cases hplaces
  | ok trail =>
    rw [hrun] at hplaces
    obtain rfl : trail.names = place := Except.ok.inj hplaces
    have hnode := (hleads trail hrun).look.symm.trans hlook
    simp only [read, follow, hadmits, hrun, bind, Except.bind, pure, Except.pure]
    cases hreached : t.reached trail with
    | file text' =>
      rw [hreached] at hnode
      cases hnode
      rfl
    | directory entries =>
      rw [hreached] at hnode
      cases hnode

/-- What was written is read back. -/
theorem Writes.read {out : String} {files : List (String × String)} (h : Writes out t files t')
    {file : String × String} (hfile : file ∈ files) : t'.read file.1 = .ok file.2 := by
  obtain ⟨place, htarget, hlook⟩ := h.texts file hfile
  obtain ⟨name, hname, hpath⟩ := h.entries file hfile
  rw [hpath, ← h.target name hname, ← hpath] at htarget
  exact read_of_target htarget hlook

end FileTree

end ShaderGen.CommandLine
