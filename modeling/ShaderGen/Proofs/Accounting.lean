import Mathlib.Algebra.Group.Nat.Defs
import Mathlib.Data.List.Nodup
import Mathlib.Data.String.Basic
import ShaderGen.CommandLine.Generate
import ShaderGen.Proofs.FileTrees
import ShaderGen.Proofs.Reading

/-!
What a run of `generate` leaves behind. What becomes of a seed is settled by its texts and
by the two places its files go to; since the names of different seeds differ and a write
takes no directory away, these places are the same before, between and after the other
seeds. So every outcome is the one the seed has alone, the files of written seeds read
back as their texts, and of everything else only one thing may change: a seed whose
layout cannot be written leaves its shader, although it counts as failed.
-/

namespace ShaderGen.CommandLine

/-! ### Names -/

namespace Path

theorem utf8Len_le (cs : List Char) : String.utf8Len cs ≤ 4 * cs.length := by
  induction cs with
  | nil => simp
  | cons c cs ih =>
    have := c.utf8Size_le_four
    rw [String.utf8Len_cons, List.length_cons]
    omega

theorem toList_seed (seed : UInt64) : (toString seed).toList = Text.digits seed.toNat := rfl

/-- The number of a seed and an ending are the name of an entry. -/
theorem plain_seed (seed : UInt64) {suffix : String} (hslash : '/' ∉ suffix.toList)
    (hshort : suffix.utf8ByteSize ≤ 100) : Plain (toString seed ++ suffix) := by
  have hdigits := toList_seed seed
  obtain ⟨c, cs, hcs⟩ := List.exists_cons_of_ne_nil (Text.digits_ne_nil seed.toNat)
  have hc : c.isDigit = true := Text.isDigit_of_mem_digits (by rw [hcs]; exact List.mem_cons_self)
  have hlist : (toString seed ++ suffix).toList = c :: (cs ++ suffix.toList) := by
    rw [String.toList_append, hdigits, hcs, List.cons_append]
  -- the name starts with a digit
  have hne {text : String} (htext : text.toList.head?.all fun d => !d.isDigit) :
      (toString seed ++ suffix == text) = false := by
    rw [beq_eq_false_iff_ne]
    rintro heq
    rw [← heq, hlist] at htext
    simp [hc] at htext
  refine ⟨?_, ?_, hne (by decide), ?_⟩
  · rw [String.toList_append, hdigits, List.mem_append, not_or]
    exact ⟨fun h => absurd (Text.isDigit_of_mem_digits h) (by decide), hslash⟩
  · rw [isHere, hne (by decide), hne (by decide)]
    rfl
  · have hlength : (Text.digits seed.toNat).length ≤ 20 := by
      rw [Text.digits_eq]
      have := seed.toNat_lt
      exact (Nat.length_toDigits_le_iff (by decide) (by decide)).mpr (by omega)
    have hsize : (toString seed).utf8ByteSize ≤ 4 * 20 := by
      rw [← String.ofList_toList (s := toString seed), String.utf8ByteSize_ofList, hdigits]
      exact (utf8Len_le _).trans (Nat.mul_le_mul_left 4 hlength)
    rw [String.utf8ByteSize_append, nameLimit]
    omega

theorem entry_injective (out : String) {name name' : String} (h : Plain name) (h' : Plain name')
    (heq : entry out name = entry out name') : name = name' := by
  have hsplit := congrArg split heq
  rw [split_entry out h, split_entry out h'] at hsplit
  simpa using hsplit

end Path

theorem plain_shader (seed : UInt64) : Path.Plain (toString seed ++ ".spvasm") :=
  Path.plain_seed seed (by decide) (by decide)

theorem plain_buffers (seed : UInt64) : Path.Plain (toString seed ++ ".buffers.json") :=
  Path.plain_seed seed (by decide) (by decide)

/-- The number of a seed is read off its digits. -/
theorem toString_injective {seed seed' : UInt64} (h : toString seed = toString seed') :
    seed = seed' := by
  have hdigits : Text.digits seed.toNat = Text.digits seed'.toNat := congrArg String.toList h
  exact UInt64.toNat_inj.mp (Text.digits_injective hdigits)

theorem shaderPath_injective {out : String} {seed seed' : UInt64}
    (h : shaderPath out seed = shaderPath out seed') : seed = seed' := by
  have hname := Path.entry_injective out (plain_shader seed) (plain_shader seed') h
  exact toString_injective ((String.append_left_inj _).mp hname)

theorem buffersPath_injective {out : String} {seed seed' : UInt64}
    (h : buffersPath out seed = buffersPath out seed') : seed = seed' := by
  have hname := Path.entry_injective out (plain_buffers seed) (plain_buffers seed') h
  exact toString_injective ((String.append_left_inj _).mp hname)

/-- No shader is written where a layout is. -/
theorem shaderPath_ne_buffersPath (out : String) (seed seed' : UInt64) :
    shaderPath out seed ≠ buffersPath out seed' := by
  intro h
  have hname := Path.entry_injective out (plain_shader seed) (plain_buffers seed') h
  have hlast := congrArg (fun name : String => name.toList.getLast?) hname
  simp [String.toList_append] at hlast

/-! ### Outcomes -/

/-- Whether an operation was called outside its domain. -/
def Outcome.isBroken : Outcome → Bool
  | .broken _ => true
  | _ => false

/-- Every outcome is counted once. -/
theorem Summary.count_ofOutcomes (outcomes : List Outcome) :
    (Summary.ofOutcomes outcomes).written + (Summary.ofOutcomes outcomes).overBudget +
      (Summary.ofOutcomes outcomes).failed + outcomes.countP Outcome.isBroken =
      outcomes.length := by
  simp only [Summary.ofOutcomes]
  induction outcomes with
  | nil => rfl
  | cons outcome outcomes ih =>
    simp only [List.countP_cons, List.length_cons]
    cases outcome <;> simp only [Outcome.isBroken] <;> simp <;> omega

theorem Options.nodup_seeds (o : Options) : o.seeds.Nodup := by
  refine List.Nodup.map_on (fun k hk k' hk' h => ?_) List.nodup_range
  have hsize := o.count.toNat_lt
  have hbound {k : Nat} (hk : k ∈ List.range o.count.toNat) : k < 2 ^ 64 :=
    (List.mem_range.mp hk).trans hsize
  have hsame : k.toUInt64 = k'.toUInt64 := by simpa using h
  have hnat := congrArg UInt64.toNat hsame
  rwa [Nat.toUInt64_eq, Nat.toUInt64_eq, UInt64.toNat_ofNat', UInt64.toNat_ofNat',
    Nat.mod_eq_of_lt (hbound hk), Nat.mod_eq_of_lt (hbound hk')] at hnat

theorem Options.length_seeds (o : Options) : o.seeds.length = o.count.toNat := by
  rw [Options.seeds, List.length_map, List.length_range]

/-- The files a seed leaves, given what became of it: its shader and its layout if it is
written, the shader alone if the layout could not be written, and else none. -/
def filesLeft (c : Config) (out : String) (seed : UInt64) (outcome : Outcome) :
    List (String × String) :=
  match artifactsOf c seed, outcome with
  | .ok a, .written _ => [(shaderPath out seed, a.shader), (buffersPath out seed, a.buffers)]
  | .ok a, .failed (.file path _) =>
    if path = buffersPath out seed then [(shaderPath out seed, a.shader)] else []
  | _, _ => []

/-- What becomes of a seed, by the places of its files. -/
def outcomeAt (t : FileTree) (c : Config) (out : String) (seed : UInt64) : Outcome :=
  match artifactsOf c seed with
  | .error outcome => outcome
  | .ok _ =>
    match t.target (shaderPath out seed) with
    | .error e => .failed (.file (shaderPath out seed) e)
    | .ok _ =>
      match t.target (buffersPath out seed) with
      | .error e => .failed (.file (buffersPath out seed) e)
      | .ok _ => .written (shaderPath out seed)

/-- The files have been written to, whether it went well or not. -/
def Outcome.isFiled : Outcome → Bool
  | .written _ | .failed (.file _ _) => true
  | _ => false

/-- Files are written to for the texts of a seed only. -/
theorem exists_artifacts {t : FileTree} {c : Config} {out : String} {seed : UInt64}
    (h : (outcomeAt t c out seed).isFiled = true) : ∃ a, artifactsOf c seed = .ok a := by
  cases ha : artifactsOf c seed with
  | ok a => exact ⟨a, rfl⟩
  | error outcome =>
    rw [outcomeAt, ha] at h
    unfold artifactsOf at ha
    split at ha
    · cases ha
      cases h
    · cases ha
      cases h
    · cases ha
      cases h
    · split at ha
      · cases ha
      · cases ha
        cases h
      · cases ha
        cases h

namespace FileTree

variable {t t' t'' : FileTree} {c : Config} {out : String}

theorem run_bind_of_run {σ α β : Type} {x : StateM σ α} {f : α → StateM σ β} {s s' : σ} {a : α}
    (h : x.run s = (a, s')) : (x >>= f).run s = (f a).run s' := by
  rw [StateT.run_bind, h]
  rfl

theorem run_writeText (t : FileTree) (path text : String) :
    (Files.writeText path text : StateM FileTree _).run t =
      match t.target path with
      | .ok place => (.ok (), t.plant place (.file text))
      | .error e => (.error e, t) := by
  have happly : (Files.writeText path text : StateM FileTree _).run t =
      apply (fun t => t.write path text) t := rfl
  rw [happly]
  simp only [apply, write_eq]
  cases t.target path <;> rfl

theorem run_writeArtifacts (t : FileTree) (out : String) (seed : UInt64) (a : Artifacts) :
    (writeArtifacts out seed a : StateM FileTree Outcome).run t =
      match t.target (shaderPath out seed) with
      | .error e => (.failed (.file (shaderPath out seed) e), t)
      | .ok place =>
        let t' := t.plant place (.file a.shader)
        match t'.target (buffersPath out seed) with
        | .error e => (.failed (.file (buffersPath out seed) e), t')
        | .ok place' => (.written (shaderPath out seed), t'.plant place' (.file a.buffers)) := by
  unfold writeArtifacts
  have hfirst := run_writeText t (shaderPath out seed) a.shader
  cases hshader : t.target (shaderPath out seed) with
  | error e =>
    rw [hshader] at hfirst
    exact run_bind_of_run hfirst
  | ok place =>
    rw [hshader] at hfirst
    refine (run_bind_of_run hfirst).trans ?_
    have hsecond := run_writeText (t.plant place (.file a.shader)) (buffersPath out seed) a.buffers
    dsimp only
    cases hbuffers : (t.plant place (.file a.shader)).target (buffersPath out seed) with
    | error e =>
      rw [hbuffers] at hsecond
      exact run_bind_of_run hsecond
    | ok place' =>
      rw [hbuffers] at hsecond
      exact run_bind_of_run hsecond

/-- The outcome of a seed depends on its two places alone. -/
theorem outcomeAt_congr
    (h : ∀ name, Path.Plain name → t'.target (Path.entry out name) = t.target (Path.entry out name))
    (c : Config) (seed : UInt64) : outcomeAt t' c out seed = outcomeAt t c out seed := by
  unfold outcomeAt
  rw [shaderPath, buffersPath, h _ (plain_shader seed), h _ (plain_buffers seed)]

/-- One seed: the outcome is the one its places give it, and the tree has the files that
go with that outcome and no others. -/
theorem run_generateOne (hstart : t.Starts out) (c : Config) (seed : UInt64) : ∃ t',
    (generateOne c out seed : StateM FileTree Outcome).run t = (outcomeAt t c out seed, t') ∧
      Writes out t (filesLeft c out seed (outcomeAt t c out seed)) t' := by
  unfold generateOne outcomeAt filesLeft
  cases artifactsOf c seed with
  | error outcome => exact ⟨t, rfl, .nil out t⟩
  | ok a =>
  simp only [run_writeArtifacts]
  cases hshader : t.target (shaderPath out seed) with
  | error e =>
    refine ⟨t, rfl, ?_⟩
    simp only [if_neg (shaderPath_ne_buffersPath out seed seed)]
    exact .nil out t
  | ok place =>
  have hfirst : Writes out t [(shaderPath out seed, a.shader)] (t.plant place (.file a.shader)) :=
    writes_plant hstart (plain_shader seed) hshader a.shader
  have hsame : (t.plant place (.file a.shader)).target (buffersPath out seed) =
      t.target (buffersPath out seed) := hfirst.target _ (plain_buffers seed)
  simp only [hsame]
  cases hbuffers : t.target (buffersPath out seed) with
  | error e => exact ⟨_, rfl, by simpa using hfirst⟩
  | ok place' =>
    have hsecond := writes_plant (hstart.of_grows hfirst.grows).1 (plain_buffers seed)
      (hsame.trans hbuffers) a.buffers
    refine ⟨_, rfl, hfirst.trans hsecond fun file hfile file' hfile' => ?_⟩
    obtain rfl := List.mem_singleton.mp hfile
    obtain rfl := List.mem_singleton.mp hfile'
    exact shaderPath_ne_buffersPath out seed seed

/-- A file that a seed leaves is its shader or its layout. -/
theorem path_of_mem_filesLeft {seed : UInt64} {outcome : Outcome} {file : String × String}
    (h : file ∈ filesLeft c out seed outcome) :
    file.1 = shaderPath out seed ∨ file.1 = buffersPath out seed := by
  unfold filesLeft at h
  split at h
  · simp only [List.mem_cons, List.not_mem_nil, or_false] at h
    rcases h with rfl | rfl
    · exact .inl rfl
    · exact .inr rfl
  · split_ifs at h
    · exact .inl (congrArg Prod.fst (List.mem_singleton.mp h))
    · exact nomatch h
  · exact nomatch h

/-- Any number of different seeds: every outcome is the one the seed has alone. -/
theorem run_seeds (hstart : t.Starts out) (c : Config) {seeds : List UInt64}
    (hseeds : seeds.Nodup) : ∃ t',
    (seeds.mapM (generateOne c out) : StateM FileTree (List Outcome)).run t =
        (seeds.map (outcomeAt t c out), t') ∧
      Writes out t (seeds.flatMap fun seed => filesLeft c out seed (outcomeAt t c out seed))
        t' := by
  induction seeds generalizing t with
  | nil => exact ⟨t, rfl, .nil out t⟩
  | cons seed seeds ih =>
    obtain ⟨hseed, hseeds⟩ := List.nodup_cons.mp hseeds
    obtain ⟨t₁, hrun, hone⟩ := run_generateOne hstart c seed
    obtain ⟨t₂, hrest, hall⟩ := ih (hstart.of_grows hone.grows).1 hseeds
    have hsame : outcomeAt t₁ c out = outcomeAt t c out :=
      funext fun seed => outcomeAt_congr hone.target c seed
    rw [hsame] at hrest hall
    refine ⟨t₂, ?_, ?_⟩
    · rw [List.mapM_cons, run_bind_of_run hrun, run_bind_of_run hrest]
      rfl
    · rw [List.flatMap_cons]
      refine hone.trans hall fun file hfile file' hfile' => ?_
      obtain ⟨seed', hseed', hfile'⟩ := List.mem_flatMap.mp hfile'
      have hne : seed ≠ seed' := fun heq => hseed (heq ▸ hseed')
      rcases path_of_mem_filesLeft hfile with h | h <;>
        rcases path_of_mem_filesLeft hfile' with h' | h' <;> rw [h, h']
      · exact fun heq => hne (shaderPath_injective heq)
      · exact shaderPath_ne_buffersPath out seed seed'
      · exact (shaderPath_ne_buffersPath out seed' seed).symm
      · exact fun heq => hne (buffersPath_injective heq)

/-! ### Making the directory -/

/-- An operation that takes nothing away from any tree. -/
def Growing {α : Type} (x : StateM FileTree α) : Prop := ∀ t, Grows t (x.run t).2

theorem Growing.pure {α : Type} (a : α) : Growing (Pure.pure a : StateM FileTree α) :=
  fun t => .refl t

theorem Growing.bind {α β : Type} {x : StateM FileTree α} {f : α → StateM FileTree β}
    (hx : Growing x) (hf : ∀ a, Growing (f a)) : Growing (x >>= f) := by
  intro t
  have hrun : x.run t = ((x.run t).1, (x.run t).2) := rfl
  rw [run_bind_of_run hrun]
  exact (hx t).trans (hf _ _)

theorem growing_makeDirectory (path : String) :
    Growing (Files.makeDirectory path : StateM FileTree _) := by
  intro t
  have happly : (Files.makeDirectory path : StateM FileTree _).run t =
      apply (fun t => t.make path) t := rfl
  rw [happly]
  unfold apply
  cases hmake : t.make path with
  | error e => simpa only [hmake] using .refl t
  | ok t' => simpa only [hmake] using grows_make hmake

theorem growing_isDirectory (path : String) :
    Growing (Files.isDirectory path : StateM FileTree _) := fun t => .refl t

/-- Making directories takes nothing away. -/
theorem growing_makeDirectories (levels : Nat) (path : String) :
    Growing (makeDirectoriesWithin levels path : StateM FileTree _) := by
  have hthere (path : String) (e : FileError) : Growing (do
      return if ← Files.isDirectory path then .ok () else .error e :
        StateM FileTree (Except FileError Unit)) :=
    (growing_isDirectory path).bind fun _ => .pure _
  induction levels generalizing path with
  | zero => exact .pure _
  | succ levels ih =>
    unfold makeDirectoriesWithin
    split_ifs
    · exact .pure _
    refine (growing_makeDirectory path).bind fun answer => ?_
    split
    · exact .pure _
    · refine (ih (Path.parent path)).bind fun answer => ?_
      split
      · exact .pure _
      · refine (growing_makeDirectory path).bind fun answer => ?_
        split
        · exact .pure _
        · exact hthere path _
    · exact hthere path _

end FileTree

/-! ### Runs -/

/-- What a run of `generate` comes to, on a tree that has the directory. -/
structure Accounts (o : Options) (config : Config) (t : FileTree) (outcomes : List Outcome)
    (t' : FileTree) : Prop where
  /-- There are as many seeds as asked for, each once. -/
  seeds : o.seeds.Nodup ∧ o.seeds.length = o.count.toNat
  /-- Every seed is counted once. -/
  counts : (Summary.ofOutcomes outcomes).written + (Summary.ofOutcomes outcomes).overBudget +
    (Summary.ofOutcomes outcomes).failed + outcomes.countP Outcome.isBroken = o.count.toNat
  /-- What becomes of a seed does not depend on the other seeds. -/
  alone : outcomes = o.seeds.map fun seed =>
    ((generateOne config o.out seed : StateM FileTree Outcome).run t).1
  /-- The files of a written seed read as its texts. -/
  written : ∀ seed ∈ o.seeds, ∀ path,
    ((generateOne config o.out seed : StateM FileTree Outcome).run t).1 = .written path →
      ∃ a, artifactsOf config seed = .ok a ∧ t'.read (shaderPath o.out seed) = .ok a.shader ∧
        t'.read (buffersPath o.out seed) = .ok a.buffers
  /-- A seed whose layout cannot be written has failed, and its shader is there. -/
  partly : ∀ seed ∈ o.seeds, ∀ e,
    ((generateOne config o.out seed : StateM FileTree Outcome).run t).1 =
        .failed (.file (buffersPath o.out seed) e) →
      ∃ a, artifactsOf config seed = .ok a ∧ t'.read (shaderPath o.out seed) = .ok a.shader
  /-- The files that go with the outcomes are there, and everything else is as it was. -/
  files : FileTree.Writes o.out t (o.seeds.flatMap fun seed => filesLeft config o.out seed
    ((generateOne config o.out seed : StateM FileTree Outcome).run t).1) t'

/-- Once the options are loaded and the directory is made, every run of `generate` whose list
of seeds can be reserved comes to an end with an outcome for every seed, and the files are
those that go with the outcomes. A run with more seeds than that stops there, in front of the
first of them. -/
theorem generate_accounts {o : Options} {t t₁ : FileTree} {config : Config}
    (hstart : t.Starts o.out)
    (hload : (loadConfig o.config : StateM FileTree _).run t = (.ok config, t))
    (hmake : (makeDirectories o.out : StateM FileTree _).run t = (.ok (), t₁)) :
    (8 * o.count.toNat < 2 ^ 63 →
      ∃ outcomes t', (generate o : StateM FileTree _).run t = (.ok outcomes, t') ∧
        Accounts o config t₁ outcomes t') ∧
    (2 ^ 63 ≤ 8 * o.count.toNat →
      (generate o : StateM FileTree _).run t = (.error (.broken .tooLarge), t₁)) := by
  -- the list of the seeds is reserved when there is a directory to write to
  have hrun : (generate o : StateM FileTree _).run t =
      StateT.run (if UInt64.size / 2 ≤ 8 * o.count.toNat
        then pure (.error (.broken .tooLarge))
        else do return .ok (← o.seeds.mapM (generateOne config o.out))) t₁ :=
    (FileTree.run_bind_of_run hload).trans (FileTree.run_bind_of_run hmake)
  have hhalf : UInt64.size / 2 = 2 ^ 63 := rfl
  rw [hrun, hhalf]
  refine ⟨fun hfew => ?_, fun hmany => by rw [if_pos hmany]; rfl⟩
  rw [if_neg (not_le.mpr hfew)]
  have hstart₁ : t₁.Starts o.out := by
    have hgrows := FileTree.growing_makeDirectories ((Path.split o.out).length + 1) o.out t
    rw [← makeDirectories, hmake] at hgrows
    exact (hstart.of_grows hgrows).1
  obtain ⟨t', hseeds, hwrites⟩ := FileTree.run_seeds hstart₁ config o.nodup_seeds
  have halone (seed : UInt64) :
      ((generateOne config o.out seed : StateM FileTree Outcome).run t₁).1 =
        outcomeAt t₁ config o.out seed := by
    obtain ⟨_, hone, -⟩ := FileTree.run_generateOne hstart₁ config seed
    rw [hone]
  have hread {seed : UInt64} (hseed : seed ∈ o.seeds) {path text : String}
      (hfile : (path, text) ∈ filesLeft config o.out seed (outcomeAt t₁ config o.out seed)) :
      t'.read path = .ok text :=
    hwrites.read (List.mem_flatMap.mpr ⟨seed, hseed, hfile⟩)
  refine ⟨_, t', ?_, ⟨o.nodup_seeds, o.length_seeds⟩, ?_,
    List.map_congr_left fun seed _ => (halone seed).symm, fun seed hseed path hpath => ?_,
    fun seed hseed e hfailed => ?_, ?_⟩
  · exact FileTree.run_bind_of_run hseeds
  · rw [Summary.count_ofOutcomes, List.length_map, o.length_seeds]
  · rw [halone] at hpath
    obtain ⟨a, ha⟩ := exists_artifacts (by rw [hpath]; rfl)
    have hleft : filesLeft config o.out seed (outcomeAt t₁ config o.out seed) =
        [(shaderPath o.out seed, a.shader), (buffersPath o.out seed, a.buffers)] := by
      unfold filesLeft
      rw [ha, hpath]
    exact ⟨a, ha, hread hseed (by rw [hleft]; exact List.mem_cons_self),
      hread hseed (by rw [hleft]; exact List.mem_cons_of_mem _ List.mem_cons_self)⟩
  · rw [halone] at hfailed
    obtain ⟨a, ha⟩ := exists_artifacts (by rw [hfailed]; rfl)
    have hleft : filesLeft config o.out seed (outcomeAt t₁ config o.out seed) =
        [(shaderPath o.out seed, a.shader)] := by
      unfold filesLeft
      rw [ha, hfailed]
      exact if_pos rfl
    exact ⟨a, ha, hread hseed (by rw [hleft]; exact List.mem_cons_self)⟩
  · simpa only [halone] using hwrites

/-- One shader of the default configuration, into an empty working directory; and so many
that their seeds cannot be listed. -/
theorem generate_accounts_fresh :
    (FileTree.fresh.Starts "." ∧
      (loadConfig none : StateM FileTree _).run .fresh = (.ok {}, .fresh) ∧
      (makeDirectories "." : StateM FileTree _).run .fresh = (.ok (), .fresh)) ∧
    (∃ outcomes t', (generate {} : StateM FileTree _).run .fresh = (.ok outcomes, t') ∧
      Accounts {} {} .fresh outcomes t') ∧
    (generate { count := .ofNat (2 ^ 60) } : StateM FileTree _).run .fresh =
      (.error (.broken .tooLarge), .fresh) := by
  have hstart : FileTree.fresh.Starts "." := .inr ⟨["tmp", "work"], by decide +kernel⟩
  have hvalid : ({} : Config).validate = .ok () := rfl
  have hload : (loadConfig none : StateM FileTree _).run .fresh = (.ok {}, .fresh) := by
    unfold loadConfig
    refine (FileTree.run_bind_of_run rfl).trans ?_
    simp only [bind, Except.bind, hvalid]
    rfl
  have hmake : (makeDirectories "." : StateM FileTree _).run .fresh = (.ok (), .fresh) := by
    rfl
  exact ⟨⟨hstart, hload, hmake⟩, (generate_accounts (o := {}) hstart hload hmake).1 (by decide),
    (generate_accounts (o := { count := .ofNat (2 ^ 60) }) hstart hload hmake).2
      (by decide +kernel)⟩

end ShaderGen.CommandLine
