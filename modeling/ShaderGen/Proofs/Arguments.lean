import ShaderGen.CommandLine.Options
import ShaderGen.Proofs.Numerals
import ShaderGen.Proofs.EmissionErrors

/-!
Arguments and the groups they split into. A group is what makes one setting, and a list
of arguments is read from the left group by group; where no group starts, the place
itself says which error there is. Nothing behind that place is looked at, and of the
settings only the last one of each kind shows in the options.
-/

namespace ShaderGen.CommandLine

open Text

/-! ### Groups of arguments -/

/-- The words that make a setting. A path is any word at all. -/
inductive Group : List String → Setting → Prop where
  | seed {word : String} {n : UInt64} (h : Denotes UInt64.size word.toList n.toNat) :
    Group ["--seed", word] (.seed n)
  | count {word : String} {n : UInt64} (h : Denotes UInt64.size word.toList n.toNat) :
    Group ["--count", word] (.count n)
  | config (path : String) : Group ["--config", path] (.config path)
  | out (path : String) : Group ["--out", path] (.out path)
  | shortOut (path : String) : Group ["-o", path] (.out path)
  | verbose : Group ["--verbose"] .verbose
  | shortVerbose : Group ["-v"] .verbose

/-- Arguments that are groups one after the other, with their settings. -/
inductive Splits : List String → List Setting → Prop where
  | nil : Splits [] []
  | cons {group rest : List String} {setting : Setting} {settings : List Setting}
    (h : Group group setting) (hrest : Splits rest settings) :
    Splits (group ++ rest) (setting :: settings)

/-- The flags that take a number. -/
def numberFlags : List String := ["--seed", "--count"]

/-- The flags that take a path. -/
def pathFlags : List String := ["--config", "--out", "-o"]

/-- The flags that stand alone. -/
def switches : List String := ["--verbose", "-v"]

/-- Arguments that no group starts, and the error they are. -/
inductive Refused : List String → UsageError → Prop where
  | missingValue {flag : String} (h : flag ∈ numberFlags ++ pathFlags) :
    Refused [flag] (.missingValue flag)
  | invalidNumber {flag value : String} (rest : List String) (h : flag ∈ numberFlags)
    (hvalue : ∀ n, ¬ Denotes UInt64.size value.toList n) :
    Refused (flag :: value :: rest) (.invalidNumber flag value)
  | unknownOption {word : String} (rest : List String)
    (h : word ∉ numberFlags ++ pathFlags ++ switches) :
    Refused (word :: rest) (.unknownOption word)

/-! ### Numbers and flags -/

theorem readNumber_eq_ok {flag value : String} {n : UInt64}
    (h : Denotes UInt64.size value.toList n.toNat) : readNumber flag value = .ok n := by
  simp [readNumber, unsigned?_eq_some_iff.mpr h]

theorem readNumber_eq_error {flag value : String}
    (h : ∀ n, ¬ Denotes UInt64.size value.toList n) :
    readNumber flag value = .error (.invalidNumber flag value) := by
  simp only [readNumber, unsigned?_eq_none_iff.mpr h]

theorem ofWord?_eq_none {word : String} (h : word ∉ numberFlags ++ pathFlags ++ switches) :
    Flag.ofWord? word = none := by
  simp only [numberFlags, pathFlags, switches, List.cons_append, List.nil_append, List.mem_cons,
    not_or] at h
  obtain ⟨hseed, hcount, hconfig, hout, hshortOut, hverbose, hshortVerbose, -⟩ := h
  rw [Flag.ofWord?]
  all_goals assumption

/-! ### One place in the arguments -/

/-- A group gives its setting, whatever stands behind it. -/
theorem Group.readSettings {group : List String} {setting : Setting} (h : Group group setting)
    (rest : List String) :
    readSettings (group ++ rest) = (setting :: ·) <$> CommandLine.readSettings rest := by
  cases h with
  | seed h =>
    change Except.bind (Setting.seed <$> readNumber _ _) _ = _
    rw [readNumber_eq_ok h]
    rfl
  | count h =>
    change Except.bind (Setting.count <$> readNumber _ _) _ = _
    rw [readNumber_eq_ok h]
    rfl
  | config | out | shortOut | verbose | shortVerbose => rfl

theorem Refused.readSettings {args : List String} {e : UsageError} (h : Refused args e) :
    readSettings args = .error e := by
  cases h with
  | missingValue h =>
    simp only [numberFlags, pathFlags, List.cons_append, List.nil_append, List.mem_cons,
      List.not_mem_nil, or_false] at h
    rcases h with rfl | rfl | rfl | rfl | rfl <;> rfl
  | invalidNumber rest h hvalue =>
    simp only [numberFlags, List.mem_cons, List.not_mem_nil, or_false] at h
    rcases h with rfl | rfl
    · change Except.bind (Setting.seed <$> readNumber _ _) _ = _
      rw [readNumber_eq_error hvalue]
      rfl
    · change Except.bind (Setting.count <$> readNumber _ _) _ = _
      rw [readNumber_eq_error hvalue]
      rfl
  | unknownOption rest h => simp only [CommandLine.readSettings, ofWord?_eq_none h]

/-- A flag with a number and what follows it: a group, or an error. -/
theorem number_group_or_refused {flag : String} {setting : UInt64 → Setting}
    (hflag : flag ∈ numberFlags)
    (hgroup : ∀ word n, Denotes UInt64.size word.toList (UInt64.toNat n) →
      Group [flag, word] (setting n)) (rest : List String) :
    (∃ group s after, flag :: rest = group ++ after ∧ group ≠ [] ∧ Group group s) ∨
      ∃ e, Refused (flag :: rest) e := by
  cases rest with
  | nil => exact .inr ⟨_, .missingValue (List.mem_append_left _ hflag)⟩
  | cons value rest =>
    by_cases hvalue : ∃ n, Denotes UInt64.size value.toList n
    · obtain ⟨n, hn⟩ := hvalue
      have hword : (UInt64.ofNat n).toNat = n := UInt64.toNat_ofNat_of_lt hn.lt
      rw [← hword] at hn
      exact .inl ⟨[flag, value], _, rest, rfl, by simp, hgroup value _ hn⟩
    · exact .inr ⟨_, .invalidNumber rest hflag (not_exists.mp hvalue)⟩

/-- The same of a flag with a path. -/
theorem path_group_or_refused {flag : String} {setting : String → Setting}
    (hflag : flag ∈ pathFlags) (hgroup : ∀ path, Group [flag, path] (setting path))
    (rest : List String) :
    (∃ group s after, flag :: rest = group ++ after ∧ group ≠ [] ∧ Group group s) ∨
      ∃ e, Refused (flag :: rest) e := by
  cases rest with
  | nil => exact .inr ⟨_, .missingValue (List.mem_append_right _ hflag)⟩
  | cons path rest => exact .inl ⟨[flag, path], _, rest, rfl, by simp, hgroup path⟩

/-- At every word a group starts, or else there is an error. -/
theorem group_or_refused (word : String) (rest : List String) :
    (∃ group s after, word :: rest = group ++ after ∧ group ≠ [] ∧ Group group s) ∨
      ∃ e, Refused (word :: rest) e := by
  by_cases hword : word ∈ numberFlags ++ pathFlags ++ switches
  · simp only [numberFlags, pathFlags, switches, List.cons_append, List.nil_append, List.mem_cons,
      List.not_mem_nil, or_false] at hword
    rcases hword with rfl | rfl | rfl | rfl | rfl | rfl | rfl
    · exact number_group_or_refused (by decide) (fun _ _ => .seed) rest
    · exact number_group_or_refused (by decide) (fun _ _ => .count) rest
    · exact path_group_or_refused (by decide) .config rest
    · exact path_group_or_refused (by decide) .out rest
    · exact path_group_or_refused (by decide) .shortOut rest
    · exact .inl ⟨["--verbose"], _, rest, rfl, by simp, .verbose⟩
    · exact .inl ⟨["-v"], _, rest, rfl, by simp, .shortVerbose⟩
  · exact .inr ⟨_, .unknownOption rest hword⟩

/-! ### All arguments -/

/-- Arguments split, or there is a first place where they do not. -/
theorem splits_or_refused (args : List String) :
    (∃ settings, Splits args settings) ∨ ∃ before after settings e,
      args = before ++ after ∧ Splits before settings ∧ Refused after e := by
  -- a group takes one or two words, so the induction is on the length
  induction hlength : args.length using Nat.strong_induction_on generalizing args with
  | _ k ih =>
    cases args with
    | nil => exact .inl ⟨[], .nil⟩
    | cons word rest =>
      rcases group_or_refused word rest with ⟨group, s, after, hargs, hne, hgroup⟩ | ⟨e, he⟩
      · have hshorter : after.length < k := by
          have := List.length_pos_iff.mpr hne
          rw [← hlength, hargs, List.length_append]
          omega
        rw [hargs]
        rcases ih _ hshorter after rfl with ⟨settings, h⟩ | ⟨before, rest, settings, e, rfl, h, he⟩
        · exact .inl ⟨_, .cons hgroup h⟩
        · exact .inr ⟨group ++ before, rest, _, e, by simp, .cons hgroup h, he⟩
      · exact .inr ⟨[], word :: rest, [], e, rfl, .nil, he⟩

/-- Settings in front of other arguments are read first. -/
theorem Splits.readSettings {args : List String} {settings : List Setting}
    (h : Splits args settings) (rest : List String) :
    readSettings (args ++ rest) = (settings ++ ·) <$> CommandLine.readSettings rest := by
  induction h with
  | nil => simp
  | cons h _ ih =>
    rw [List.append_assoc, h.readSettings, ih]
    cases CommandLine.readSettings rest <;> rfl

theorem Splits.readSettings_eq_ok {args : List String} {settings : List Setting}
    (h : Splits args settings) : CommandLine.readSettings args = .ok settings := by
  have := h.readSettings []
  rw [List.append_nil] at this
  rw [this]
  simp [CommandLine.readSettings, Functor.map, Except.map]

theorem Splits.readSettings_eq_error {args rest : List String} {settings : List Setting}
    {e : UsageError} (h : Splits args settings) (he : Refused rest e) :
    CommandLine.readSettings (args ++ rest) = .error e := by
  rw [h.readSettings, he.readSettings]
  rfl

theorem readSettings_eq_ok {args : List String} {settings : List Setting} :
    readSettings args = .ok settings ↔ Splits args settings := by
  refine ⟨fun h => ?_, Splits.readSettings_eq_ok⟩
  rcases splits_or_refused args with ⟨settings', h'⟩ | ⟨before, after, settings', e, rfl, h', he⟩
  · cases h.symm.trans h'.readSettings_eq_ok
    exact h'
  · cases h.symm.trans (h'.readSettings_eq_error he)

theorem readSettings_eq_error {args : List String} {e : UsageError} :
    readSettings args = .error e ↔ ∃ before after settings,
      args = before ++ after ∧ Splits before settings ∧ Refused after e := by
  constructor
  · intro h
    rcases splits_or_refused args with ⟨settings, h'⟩ | ⟨before, after, settings, e', rfl, h', he⟩
    · cases h.symm.trans h'.readSettings_eq_ok
    · cases h.symm.trans (h'.readSettings_eq_error he)
      exact ⟨before, after, settings, rfl, h', he⟩
  · rintro ⟨before, after, settings, rfl, h, he⟩
    exact h.readSettings_eq_error he

/-! ### The last setting of each kind -/

/-- What a setting sets. -/
def Setting.flag : Setting → Flag
  | seed _ => .seed
  | count _ => .count
  | config _ => .config
  | out _ => .out
  | verbose => .verbose

def Setting.seed? : Setting → Option UInt64
  | seed n => some n
  | _ => none

def Setting.count? : Setting → Option UInt64
  | count n => some n
  | _ => none

def Setting.config? : Setting → Option String
  | config path => some path
  | _ => none

def Setting.out? : Setting → Option String
  | out path => some path
  | _ => none

/-- The last value that settings give by `value?`. -/
def last? {α : Type} (value? : Setting → Option α) (settings : List Setting) : Option α :=
  (settings.filterMap value?).getLast?

/-- The options in which every field is the last setting of its kind, or else its default. -/
def Options.latest (settings : List Setting) : Options where
  seed := (last? Setting.seed? settings).getD 0
  count := (last? Setting.count? settings).getD 1
  config := last? Setting.config? settings
  out := (last? Setting.out? settings).getD "."
  verbose := decide (.verbose ∈ settings)

@[simp] theorem last?_concat {α : Type} (value? : Setting → Option α) (settings : List Setting)
    (s : Setting) : last? value? (settings ++ [s]) = (value? s).or (last? value? settings) := by
  cases h : value? s <;> simp [last?, h]

theorem Options.latest_concat (settings : List Setting) (s : Setting) :
    latest (settings ++ [s]) = (latest settings).set s := by
  cases s <;>
    simp [latest, set, Setting.seed?, Setting.count?, Setting.config?, Setting.out?]

/-- Setting after setting, the last one of each kind is left. -/
theorem Options.foldl_set (settings : List Setting) : settings.foldl set {} = latest settings := by
  induction settings using List.reverseRecOn with
  | nil => rfl
  | append_singleton settings s ih =>
    rw [List.foldl_append, ih, latest_concat]
    rfl

theorem Options.set_comm {s₁ s₂ : Setting} (h : s₁.flag ≠ s₂.flag) (o : Options) :
    (o.set s₁).set s₂ = (o.set s₂).set s₁ := by
  cases s₁ <;> cases s₂ <;> first | rfl | exact absurd rfl h

/-! ### Reading options -/

theorem Options.read_eq_ok {args : List String} {o : Options} :
    read args = .ok o ↔ ∃ settings, Splits args settings ∧ o = latest settings := by
  simp only [read, map_eq_ok, readSettings_eq_ok, foldl_set, eq_comm (a := o)]

theorem Options.read_eq_error {args : List String} {e : UsageError} :
    read args = .error e ↔ ∃ before after settings,
      args = before ++ after ∧ Splits before settings ∧ Refused after e := by
  rw [read, map_eq_error, readSettings_eq_error]

theorem Options.read_swap {before after group₁ group₂ : List String} {settings : List Setting}
    {s₁ s₂ : Setting} (h : Splits before settings) (h₁ : Group group₁ s₁) (h₂ : Group group₂ s₂)
    (hflag : s₁.flag ≠ s₂.flag) :
    read (before ++ (group₁ ++ (group₂ ++ after))) =
      read (before ++ (group₂ ++ (group₁ ++ after))) := by
  simp only [read, h.readSettings, h₁.readSettings, h₂.readSettings]
  cases readSettings after with
  | error => rfl
  | ok rest =>
    refine congrArg Except.ok ?_
    simp only [List.foldl_append, List.foldl_cons, set_comm hflag]

/-- Options are read exactly from arguments that split into groups, and every field is then
the last setting of its kind; otherwise the error is the one of the place where the groups
end, whatever follows. Neighbours that set different fields can be exchanged. -/
theorem Options.read_by_groups :
    (∀ args o, read args = .ok o ↔ ∃ settings, Splits args settings ∧ o = latest settings) ∧
      (∀ args e, read args = .error e ↔ ∃ before after settings,
        args = before ++ after ∧ Splits before settings ∧ Refused after e) ∧
      ∀ before after group₁ group₂ settings s₁ s₂, Splits before settings → Group group₁ s₁ →
        Group group₂ s₂ → s₁.flag ≠ s₂.flag →
        read (before ++ (group₁ ++ (group₂ ++ after))) =
          read (before ++ (group₂ ++ (group₁ ++ after))) :=
  ⟨fun _ _ => read_eq_ok, fun _ _ => read_eq_error, fun _ _ _ _ _ _ _ => read_swap⟩

/-- A path that looks like a flag, a flag given twice, and two words that end the groups. -/
theorem Options.read_misaligned :
    read ["-o", "--seed", "--count", "+02", "-v", "-o", "-v"] =
        .ok { count := 2, out := "-v", verbose := true } ∧
      read ["-v", "--out", "--seed", "40", "--count"] = .error (.unknownOption "40") ∧
      read ["-v", "--seed", "-1", "--count"] = .error (.invalidNumber "--seed" "-1") ∧
      read ["-v", "--out", "a", "--count"] = read ["--out", "a", "-v", "--count"] := by
  have htwo : Denotes UInt64.size "+02".toList (2 : UInt64).toNat :=
    unsigned?_eq_some_iff.mp (by decide)
  have hminus : ∀ n, ¬ Denotes UInt64.size "-1".toList n :=
    unsigned?_eq_none_iff.mp (by decide)
  have hsplits : Splits ["-v", "--out", "--seed"] [.verbose, .out "--seed"] :=
    .cons .shortVerbose (.cons (.out "--seed") .nil)
  refine ⟨(read_by_groups.1 _ _).mpr ⟨_, .cons (.shortOut "--seed")
    (.cons (.count htwo) (.cons .shortVerbose (.cons (.shortOut "-v") .nil))), rfl⟩,
    (read_by_groups.2.1 _ _).mpr ⟨_, _, _, rfl, hsplits, .unknownOption _ (by decide)⟩,
    (read_by_groups.2.1 _ _).mpr ⟨["-v"], _, _, rfl, .cons .shortVerbose .nil,
      .invalidNumber _ (by decide) hminus⟩,
    read_by_groups.2.2 [] ["--count"] ["-v"] ["--out", "a"] [] .verbose (.out "a") .nil
      .shortVerbose (.out "a") (by decide)⟩

end ShaderGen.CommandLine
