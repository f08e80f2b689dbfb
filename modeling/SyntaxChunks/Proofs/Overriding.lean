/-
# `Proofs.Overriding` — values from the environment, and those given otherwise

Every variable is read before the values given otherwise take their places.  So
a run fails by the first variable whose text is neither blank nor a value, and
else makes a configuration of the given values and, where there are none, of
those read (`Config.ofEnvironment_eq`).

For a setting that is given otherwise it makes no difference which value its
variable has.  That the variable has a value, or is blank, is asked all the
same: `ofEnvironment_eq_iff_of_sets` says when two environments that differ in
that variable alone have the same outcome, and `overridden_variable_matters`
that they do not always have it.
-/
import Mathlib.Data.List.TakeWhile
import SyntaxChunks.Config

namespace SyntaxChunks

/-! ## One variable -/

namespace Variable

/-- The variables in the order in which they are read. -/
def inOrder : List Variable :=
  [.maxChunkChars, .windowLines, .overlapLines, .parseTimeout, .splitLeaves]

/-- The variables that are read before this one. -/
def before (v : Variable) : List Variable :=
  inOrder.takeWhile (· ≠ v)

/-- Does the text write a value of the variable? -/
def accepts : Variable → Text → Bool
  | .parseTimeout, text => (Number.readBinary64? text).isSome
  | .splitLeaves, text => (readBool? text).isSome
  | _, text => (Number.readInt? text).isSome

/-- The error about a text that writes no value of the variable. -/
def wrong (v : Variable) : Text → ConfigError :=
  match v with
  | .parseTimeout => .notNumber v
  | .splitLeaves => .notBoolean v
  | _ => .notInteger v

theorem name_injective : Function.Injective name := by
  intro v v'
  cases v <;> cases v' <;> decide

end Variable

/-- The variable that an error is about. -/
def ConfigError.source? : ConfigError → Option Variable
  | .notInteger source _ | .notNumber source _ | .notBoolean source _ => some source
  | _ => none

theorem Variable.source?_wrong (v : Variable) (text : Text) :
    (v.wrong text).source? = some v := by
  cases v <;> rfl

/-- The text of the error begins with the name of the variable. -/
theorem Variable.message_wrong (v : Variable) (text : Text) :
    ∃ rest, (v.wrong text).message = v.name ++ rest := by
  cases v <;> exact ⟨_, String.append_assoc⟩

namespace Environment

variable (env : Environment) (v : Variable)

/-- The text of a variable without the blanks around it, empty if the variable is not set. -/
def text : Text :=
  Text.strip ((env v.name).getD "")

/-- What is wrong with a variable: its text is neither blank nor a value. -/
def fault? : Option ConfigError :=
  if (env.text v).isEmpty || v.accepts (env.text v) then none else some (v.wrong (env.text v))

/-- What a variable that is not blank reads as. -/
def read? {α : Type} (read : Text → Option α) : Option α :=
  if (env.text v).isEmpty then none else read (env.text v)

variable {env : Environment} {v : Variable}

/-- Reading a variable fails if something is wrong with it, and gives its value otherwise. -/
theorem value?_eq {α : Type} {read : Text → Option α} (wrong : Variable → Text → ConfigError)
    (haccepts : ∀ text, v.accepts text = (read text).isSome) (hwrong : wrong v = v.wrong) :
    env.value? v read wrong =
      match env.fault? v with
      | some e => .error e
      | none => .ok (env.read? v read) := by
  have htext : Text.strip ((env v.name).getD "") = env.text v := rfl
  simp only [value?, fault?, read?, htext, haccepts, hwrong]
  by_cases hblank : (env.text v).isEmpty
  · simp only [hblank, Bool.true_or, if_true]
  · cases hread : read (env.text v) <;> simp [hblank]

theorem fault?_eq_of_ne_none (h : env.fault? v ≠ none) :
    env.fault? v = some (v.wrong (env.text v)) := by
  unfold fault? at h ⊢
  split at h
  · exact absurd rfl h
  · next hwrong => rw [if_neg hwrong]

theorem source?_of_fault? {e : ConfigError} (h : env.fault? v = some e) : e.source? = some v := by
  have hwrong : env.fault? v = some (v.wrong (env.text v)) := fault?_eq_of_ne_none (by simp [h])
  rw [h] at hwrong
  cases hwrong
  exact v.source?_wrong _

/-- What the variables read as, with nothing for a text that is no value. -/
def values (env : Environment) : Overrides where
  maxChunkChars := env.read? .maxChunkChars Number.readInt?
  windowLines := env.read? .windowLines Number.readInt?
  overlapLines := env.read? .overlapLines Number.readInt?
  parseTimeout := env.read? .parseTimeout Number.readBinary64?
  splitLeaves := env.read? .splitLeaves readBool?

end Environment

/-! ## All variables -/

namespace Overrides

/-- The settings of given values, of those read where none is given, and of neither the standard. -/
def onto (given read : Overrides) : Settings :=
  let standard : Settings := {}
  { maxChunkChars := (given.maxChunkChars <|> read.maxChunkChars).getD standard.maxChunkChars
    windowLines := (given.windowLines <|> read.windowLines).getD standard.windowLines
    overlapLines := (given.overlapLines <|> read.overlapLines).getD standard.overlapLines
    parseTimeout := given.parseTimeout <|> read.parseTimeout <|> standard.parseTimeout
    splitLeaves := (given.splitLeaves <|> read.splitLeaves).getD standard.splitLeaves }

/-- Is a value given for the setting of a variable? -/
def sets (given : Overrides) : Variable → Bool
  | .maxChunkChars => given.maxChunkChars.isSome
  | .windowLines => given.windowLines.isSome
  | .overlapLines => given.overlapLines.isSome
  | .parseTimeout => given.parseTimeout.isSome
  | .splitLeaves => given.splitLeaves.isSome

end Overrides

theorem Settings.ofEnvironment_eq (env : Environment) (given : Overrides) :
    Settings.ofEnvironment env given =
      match Variable.inOrder.findSome? env.fault? with
      | some e => .error e
      | none => .ok (given.onto env.values) := by
  unfold Settings.ofEnvironment
  rw [Environment.value?_eq (v := .maxChunkChars) .notInteger (fun _ => rfl) rfl,
    Environment.value?_eq (v := .windowLines) .notInteger (fun _ => rfl) rfl,
    Environment.value?_eq (v := .overlapLines) .notInteger (fun _ => rfl) rfl,
    Environment.value?_eq (v := .parseTimeout) .notNumber (fun _ => rfl) rfl,
    Environment.value?_eq (v := .splitLeaves) .notBoolean (fun _ => rfl) rfl]
  simp only [Variable.inOrder, List.findSome?_cons, List.findSome?_nil]
  -- the first fault ends the run, and without one all values are there
  cases env.fault? .maxChunkChars with
  | some e => rfl
  | none =>
  cases env.fault? .windowLines with
  | some e => rfl
  | none =>
  cases env.fault? .overlapLines with
  | some e => rfl
  | none =>
  cases env.fault? .parseTimeout with
  | some e => rfl
  | none =>
  cases env.fault? .splitLeaves with
  | some e => rfl
  | none =>
      simp only [Environment.values, Overrides.onto]
      rfl

/-- A run fails by the first variable with something wrong, and else checks the given values over
those read. -/
theorem Config.ofEnvironment_eq (env : Environment) (given : Overrides) :
    Config.ofEnvironment env given =
      match Variable.inOrder.findSome? env.fault? with
      | some e => .error e
      | none => (given.onto env.values).check := by
  rw [Config.ofEnvironment, Settings.ofEnvironment_eq]
  cases Variable.inOrder.findSome? env.fault? <;> rfl

/-! ## Two environments -/

/-- The environments differ in one variable alone. -/
def Environment.AgreeBut (env env' : Environment) (f : Variable) : Prop :=
  ∀ name, name ≠ f.name → env name = env' name

section

variable {env env' : Environment} {f : Variable}

theorem Environment.AgreeBut.text_eq (h : env.AgreeBut env' f) {v : Variable} (hv : v ≠ f) :
    env.text v = env'.text v := by
  rw [Environment.text, Environment.text, h v.name fun hname => hv (Variable.name_injective hname)]

theorem Environment.AgreeBut.fault?_eq (h : env.AgreeBut env' f) {v : Variable} (hv : v ≠ f) :
    env.fault? v = env'.fault? v := by
  rw [Environment.fault?, Environment.fault?, h.text_eq hv]

/-- What a variable reads as is of no use where its setting is given. -/
theorem Environment.AgreeBut.onto_eq (h : env.AgreeBut env' f) {given : Overrides}
    (hset : given.sets f) : given.onto env.values = given.onto env'.values := by
  have hfield : ∀ {α : Type} (v : Variable) (read : Text → Option α) (x : Option α)
      (g : Option α → Option α), (given.sets v → x.isSome) →
      (x <|> g (env.read? v read)) = (x <|> g (env'.read? v read)) := by
    intro α v read x g hx
    by_cases hv : v = f
    · obtain ⟨a, rfl⟩ := Option.isSome_iff_exists.mp (hx (hv ▸ hset))
      simp only [Option.orElse_eq_orElse, Option.orElse_some]
    · rw [Environment.read?, Environment.read?, h.text_eq hv]
  have hmax := hfield .maxChunkChars Number.readInt? given.maxChunkChars id fun h => h
  have hlines := hfield .windowLines Number.readInt? given.windowLines id fun h => h
  have hoverlap := hfield .overlapLines Number.readInt? given.overlapLines id fun h => h
  have htimeout := fun rest =>
    hfield .parseTimeout Number.readBinary64? given.parseTimeout (· <|> rest) fun h => h
  have hleaves := hfield .splitLeaves readBool? given.splitLeaves id fun h => h
  simp only [id] at hmax hlines hoverlap hleaves
  simp only [Overrides.onto, Environment.values, hmax, hlines, hoverlap, hleaves, htimeout]

/-- Where a setting is given, only what is wrong with its variable tells two environments apart. -/
theorem Environment.AgreeBut.ofEnvironment_eq (h : env.AgreeBut env' f) {given : Overrides}
    (hset : given.sets f) (hfault : env.fault? f = env'.fault? f) :
    Config.ofEnvironment env given = Config.ofEnvironment env' given := by
  have hall : env.fault? = env'.fault? := by
    funext v
    by_cases hv : v = f
    · rw [hv, hfault]
    · exact h.fault?_eq hv
  rw [Config.ofEnvironment_eq, Config.ofEnvironment_eq, hall, h.onto_eq hset]

end

/-! ## The error that wins -/

namespace Variable

theorem inOrder_eq (f : Variable) : ∃ after, inOrder = f.before ++ f :: after := by
  cases f <;> exact ⟨_, rfl⟩

theorem ne_of_mem_before {v f : Variable} (h : v ∈ f.before) : v ≠ f := by
  simpa using List.mem_takeWhile_imp h

end Variable

/-- What settings lack is not the fault of one variable. -/
theorem Settings.source?_of_check {s : Settings} {e : ConfigError} (h : s.check = .error e) :
    e.source? = none := by
  unfold Settings.check at h
  split at h
  · split at h
    · next e' hwindow =>
        cases h
        unfold Settings.checkWindow at hwindow
        split at hwindow <;> cases hwindow <;> rfl
    · split at h <;> cases h
      rfl
  · cases h
    rfl

section

variable {env : Environment} {given : Overrides} {f : Variable} {e : ConfigError}

/-- The first variable with something wrong decides. -/
theorem Config.ofEnvironment_eq_error {v : Variable} {front back : List Variable}
    (horder : Variable.inOrder = front ++ v :: back) (hfront : ∀ u ∈ front, env.fault? u = none)
    (hfault : env.fault? v = some e) : Config.ofEnvironment env given = .error e := by
  have hfirst : Variable.inOrder.findSome? env.fault? = some e :=
    List.findSome?_eq_some_iff.mpr ⟨front, v, back, horder, hfault, hfront⟩
  rw [Config.ofEnvironment_eq, hfirst]

/-- An error about a variable tells that something is wrong with it. -/
theorem Config.fault?_of_source? (h : Config.ofEnvironment env given = .error e)
    (hsource : e.source? = some f) : env.fault? f = some e := by
  rw [Config.ofEnvironment_eq] at h
  cases hfirst : Variable.inOrder.findSome? env.fault? with
  | none =>
      rw [hfirst] at h
      rw [Settings.source?_of_check h] at hsource
      cases hsource
  | some e' =>
      rw [hfirst] at h
      cases h
      obtain ⟨v, _, hv⟩ := List.exists_of_findSome?_eq_some hfirst
      have hsame := (Environment.source?_of_fault? hv).symm.trans hsource
      cases hsame
      exact hv

end

section

variable {env env' : Environment} {f : Variable} {given : Overrides}

/-- A fault before the variable hides it. -/
theorem Environment.AgreeBut.ofEnvironment_eq_of_before (h : env.AgreeBut env' f)
    (hbefore : ∃ v ∈ f.before, env.fault? v ≠ none) :
    Config.ofEnvironment env given = Config.ofEnvironment env' given := by
  obtain ⟨after, horder⟩ := f.inOrder_eq
  have hsame : ∀ v ∈ f.before, env.fault? v = env'.fault? v :=
    fun v hv => h.fault?_eq (Variable.ne_of_mem_before hv)
  cases hfirst : f.before.findSome? env.fault? with
  | none =>
      obtain ⟨v, hv, hfault⟩ := hbefore
      exact absurd (List.findSome?_eq_none_iff.mp hfirst v hv) hfault
  | some e =>
      obtain ⟨front, v, back, hsplit, hfault, hfront⟩ := List.findSome?_eq_some_iff.mp hfirst
      have hin : ∀ u ∈ front ++ v :: back, u ∈ f.before := fun u hu => hsplit ▸ hu
      rw [hsplit, List.append_assoc, List.cons_append] at horder
      rw [Config.ofEnvironment_eq_error horder hfront hfault]
      refine (Config.ofEnvironment_eq_error horder (fun u hu => ?_) ?_).symm
      · rw [← hsame u (hin u (List.mem_append_left _ hu))]
        exact hfront u hu
      · rw [← hsame v (hin v (List.mem_append_right _ List.mem_cons_self))]
        exact hfault

/-- Without a fault before it, what is wrong with a variable is seen. -/
theorem Environment.fault?_of_ofEnvironment_eq {e : ConfigError}
    (hbefore : ∀ v ∈ f.before, env.fault? v = none)
    (hsame : Config.ofEnvironment env given = Config.ofEnvironment env' given)
    (hfault : env.fault? f = some e) : env'.fault? f = some e := by
  obtain ⟨after, horder⟩ := f.inOrder_eq
  rw [Config.ofEnvironment_eq_error horder hbefore hfault] at hsame
  exact Config.fault?_of_source? hsame.symm (Environment.source?_of_fault? hfault)

end

/-! ## What a given setting leaves of its variable -/

/-- Two environments that differ in the variable of a given setting alone have the same outcome if
the variable is blank or has a value in both, whichever, and else only if the text that is wrong is
the same, or if a variable read before is wrong.  If none is, a wrong text ends the run with an
error that names the variable. -/
theorem ofEnvironment_eq_iff_of_sets {env env' : Environment} {f : Variable} {given : Overrides}
    (hset : given.sets f) (hagree : env.AgreeBut env' f) :
    (Config.ofEnvironment env given = Config.ofEnvironment env' given ↔
      (∃ v ∈ f.before, env.fault? v ≠ none) ∨ env.fault? f = env'.fault? f) ∧
    (env.fault? f ≠ none → (∀ v ∈ f.before, env.fault? v = none) →
      Config.ofEnvironment env given = .error (f.wrong (env.text f)) ∧
        ∃ rest, (f.wrong (env.text f)).message = f.name ++ rest) := by
  obtain ⟨after, horder⟩ := f.inOrder_eq
  refine ⟨⟨fun hsame => ?_, ?_⟩, fun hfault hbefore => ⟨?_, f.message_wrong _⟩⟩
  · by_cases hbefore : ∃ v ∈ f.before, env.fault? v ≠ none
    · exact .inl hbefore
    · have hnone : ∀ v ∈ f.before, env.fault? v = none := by
        simpa using hbefore
      have hnone' : ∀ v ∈ f.before, env'.fault? v = none := by
        intro v hv
        rw [← hagree.fault?_eq (Variable.ne_of_mem_before hv), hnone v hv]
      exact .inr (Option.ext fun e => ⟨Environment.fault?_of_ofEnvironment_eq hnone hsame,
        Environment.fault?_of_ofEnvironment_eq hnone' hsame.symm⟩)
  · rintro (hbefore | hfault)
    · exact hagree.ofEnvironment_eq_of_before hbefore
    · exact hagree.ofEnvironment_eq hset hfault
  · exact Config.ofEnvironment_eq_error horder hbefore (Environment.fault?_eq_of_ne_none hfault)

/-- Nothing is set but one variable. -/
def Environment.only (v : Variable) (text : Text) : Environment :=
  fun name => if name = v.name then some text else none

theorem Environment.only_agreeBut (v : Variable) (text text' : Text) :
    (Environment.only v text).AgreeBut (.only v text') v := by
  intro name hname
  rw [Environment.only, Environment.only, if_neg hname, if_neg hname]

/-- The overlap is given. -/
def threeOverlap : Overrides :=
  { overlapLines := some 3 }

theorem ofEnvironment_eq_iff_of_sets_overlap :
    threeOverlap.sets .overlapLines ∧
      (Environment.only .overlapLines " 7 ").AgreeBut (.only .overlapLines "50") .overlapLines ∧
      Config.ofEnvironment (.only .overlapLines " 7 ") threeOverlap
        = Config.ofEnvironment (.only .overlapLines "50") threeOverlap ∧
      (Environment.only .overlapLines "all").fault? .overlapLines ≠ none ∧
      (∀ v ∈ Variable.before .overlapLines,
        (Environment.only .overlapLines "all").fault? v = none) ∧
      Config.ofEnvironment (.only .overlapLines "all") threeOverlap
        = .error (.notInteger .overlapLines "all") := by
  have hset : threeOverlap.sets .overlapLines := rfl
  have hagree := Environment.only_agreeBut .overlapLines
  have hfault : (Environment.only .overlapLines " 7 ").fault? .overlapLines
      = (Environment.only .overlapLines "50").fault? .overlapLines := by
    decide +kernel
  have hwrong : (Environment.only .overlapLines "all").fault? .overlapLines ≠ none := by
    decide +kernel
  have hbefore : ∀ v ∈ Variable.before .overlapLines,
      (Environment.only .overlapLines "all").fault? v = none := by
    decide +kernel
  have htext : (Environment.only .overlapLines "all").text .overlapLines = "all" := by
    decide +kernel
  have herror := ((ofEnvironment_eq_iff_of_sets hset (hagree "all" "50")).2 hwrong hbefore).1
  rw [htext] at herror
  exact ⟨hset, hagree " 7 " "50",
    (ofEnvironment_eq_iff_of_sets hset (hagree " 7 " "50")).1.mpr (.inr hfault), hwrong, hbefore,
    herror⟩

/-- A variable whose setting is given is read all the same. -/
theorem overridden_variable_matters :
    ¬ ∀ (f : Variable) (given : Overrides) (env env' : Environment), given.sets f →
      env.AgreeBut env' f →
      Config.ofEnvironment env given = Config.ofEnvironment env' given := by
  intro hsame
  have hoverride := hsame .maxChunkChars { maxChunkChars := some 300 }
    (.only .maxChunkChars "lots") (.only .maxChunkChars "800") rfl
    (Environment.only_agreeBut .maxChunkChars "lots" "800")
  revert hoverride
  decide +kernel

end SyntaxChunks
