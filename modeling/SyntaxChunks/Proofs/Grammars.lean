/-
# `Proofs.Grammars` — how an attempt with a grammar may end

Whatever a parser does ends as a tree or as a failure to parse, after which the
next language is tried.  The one step of an attempt that may end otherwise is
that from the timeout to the parser's limit: it crashes on the timeouts that are
no numbers or too great for double precision (`parseLimit_eq_error_iff`), which
a configuration may have, as soon as a parser is there
(`GrammarRun.crashed_iff`).

* `grammars_crash_iff_no_limit` — the ends of an attempt, and of a selection.
* `windows_of_limitFault` — what a document comes to under such a timeout.
-/
import SyntaxChunks.Proofs.Except
import SyntaxChunks.Proofs.Hints
import SyntaxChunks.Proofs.Overflow
import SyntaxChunks.Proofs.Tables

namespace SyntaxChunks

open Number (Binary64 pow_two_pos)
open Number.Binary64 (overflowLimit overflowLimit_pos powTwo truncate?_scale_eq_none_iff)

/-! ## The limit of a timeout -/

/-- Why a timeout in seconds gives no limit in microseconds: it is not a number, or infinite, or its
microseconds are rounded beyond double precision. -/
inductive LimitFault : Binary64 → Crash → Prop
  | nan : LimitFault .nan .limitNotANumber
  | infinity (negative : Bool) : LimitFault (.infinity negative) .infiniteLimit
  | overflow {negative : Bool} {m : Nat} {e : Int} :
      (powTwo e).2 * overflowLimit ≤ m * 1000000 * (powTwo e).1 →
      LimitFault (.finite negative m e) .infiniteLimit

/-- The limit that a timeout sets: none for no timeout or one of zero, and else its microseconds
without their fraction, but at least one. -/
inductive SetsLimit : Option Binary64 → Option Int → Prop
  | unlimited : SetsLimit none none
  | zero {t : Binary64} : t.isZero = true → SetsLimit (some t) none
  | micros {t : Binary64} {n : Int} : t.isZero = false →
      (t.scale 1000000).truncate? = some n → SetsLimit (some t) (some (max 1 n))

section

variable {t : Binary64} {timeout : Option Binary64} {limit : Option Int} {crash : Crash}

theorem parseLimit_eq_error_iff : parseLimit t = .error crash ↔ LimitFault t crash := by
  unfold parseLimit
  split
  · constructor
    · rintro ⟨⟩
      exact .nan
    · rintro ⟨⟩
      rfl
  · next hnumber =>
      split
      · next hsome =>
          refine iff_of_false nofun ?_
          rintro (_ | _ | hover)
          · exact hnumber rfl
          · cases hsome
          · rw [truncate?_scale_eq_none_iff.mpr hover] at hsome
            cases hsome
      · next hnone =>
          constructor
          · rintro ⟨⟩
            cases t with
            | nan => exact absurd rfl hnumber
            | infinity negative => exact .infinity negative
            | finite negative m e => exact .overflow (truncate?_scale_eq_none_iff.mp hnone)
          · rintro (_ | _ | _)
            · exact absurd rfl hnumber
            · rfl
            · rfl

theorem parseLimit_eq_ok_iff {n : Int} :
    parseLimit t = .ok n ↔ ∃ micros, (t.scale 1000000).truncate? = some micros ∧
      n = max 1 micros := by
  unfold parseLimit
  split
  · refine iff_of_false nofun ?_
    rintro ⟨micros, hsome, _⟩
    cases hsome
  · split
    · next micros hsome =>
        constructor
        · rintro ⟨⟩
          exact ⟨micros, hsome, rfl⟩
        · rintro ⟨micros', hsome', rfl⟩
          cases hsome.symm.trans hsome'
          rfl
    · next hnone =>
        refine iff_of_false nofun ?_
        rintro ⟨micros, hsome, _⟩
        cases hnone.symm.trans hsome

theorem LimitFault.unique {crash' : Crash} (h : LimitFault t crash) (h' : LimitFault t crash') :
    crash = crash' :=
  Except.error.inj ((parseLimit_eq_error_iff.mpr h).symm.trans (parseLimit_eq_error_iff.mpr h'))

/-- A timeout that has no limit is none of zero. -/
theorem LimitFault.isZero (h : LimitFault t crash) : t.isZero = false := by
  cases h with
  | nan => rfl
  | infinity negative => rfl
  | @overflow negative m e hover =>
      rw [Binary64.isZero, beq_eq_false_iff_ne]
      rintro rfl
      have hpos := Nat.mul_pos (pow_two_pos (-e).toNat) overflowLimit_pos
      rw [Nat.zero_mul] at hover
      exact Nat.not_le.mpr hpos hover

theorem mem_effectiveTimeout : t ∈ effectiveTimeout timeout ↔ t ∈ timeout ∧ t.isZero = false := by
  rw [effectiveTimeout, Option.mem_filter_iff, Bool.not_eq_true']

theorem limitFault_effectiveTimeout :
    (∃ t ∈ effectiveTimeout timeout, LimitFault t crash) ↔ ∃ t ∈ timeout, LimitFault t crash := by
  constructor
  · rintro ⟨t, ht, hfault⟩
    exact ⟨t, (mem_effectiveTimeout.mp ht).1, hfault⟩
  · rintro ⟨t, ht, hfault⟩
    exact ⟨t, mem_effectiveTimeout.mpr ⟨ht, hfault.isZero⟩, hfault⟩

theorem setsLimit_none (h : effectiveTimeout timeout = none) : SetsLimit timeout none := by
  cases timeout with
  | none => exact .unlimited
  | some t =>
      refine .zero ?_
      by_contra hzero
      have hmem := mem_effectiveTimeout.mpr ⟨rfl, Bool.eq_false_of_not_eq_true hzero⟩
      rw [h] at hmem
      cases hmem

theorem SetsLimit.unique {limit' : Option Int} (h : SetsLimit timeout limit)
    (h' : SetsLimit timeout limit') : limit = limit' := by
  cases h with
  | unlimited =>
      cases h'
      rfl
  | zero hzero =>
      cases h' with
      | zero _ => rfl
      | micros hnonzero _ => cases hzero.symm.trans hnonzero
  | micros hnonzero hlimit =>
      cases h' with
      | zero hzero => cases hzero.symm.trans hnonzero
      | micros _ hlimit' =>
          cases hlimit.symm.trans hlimit'
          rfl

theorem SetsLimit.not_limitFault (h : SetsLimit timeout limit) :
    ∀ t ∈ timeout, ∀ crash, ¬ LimitFault t crash := by
  cases h with
  | unlimited => exact nofun
  | zero hzero =>
      rintro t ⟨⟩ crash hfault
      rw [hfault.isZero] at hzero
      cases hzero
  | micros _ hlimit =>
      rintro t ⟨⟩ crash hfault
      have hok := parseLimit_eq_ok_iff.mpr ⟨_, hlimit, rfl⟩
      rw [parseLimit_eq_error_iff.mpr hfault] at hok
      cases hok

end

/-- The standard timeout of five seconds has a limit. -/
theorem setsLimit_standard : SetsLimit Config.standard.timeout (some 5000000) := by
  have hfive : Binary64.ofInt 5 = .finite false 5629499534213120 (-50) := by decide +kernel
  have hscaled : (Binary64.finite false 5629499534213120 (-50)).scale 1000000
      = .finite false 5368709120000000 (-30) := by decide +kernel
  have hmicros : (Binary64.finite false 5368709120000000 (-30)).truncate? = some 5000000 := by
    decide +kernel
  have htimeout : Config.standard.timeout = some (.finite false 5629499534213120 (-50)) :=
    congrArg some hfive
  rw [htimeout]
  exact .micros rfl (hscaled ▸ hmicros)

/-! ## One attempt -/

/-- The ways an attempt with a grammar under a timeout goes. -/
inductive GrammarRun (grammars : Grammars) (name : Text) (contents : Contents)
    (timeout : Option Binary64) : Reply → Prop
  | unavailable {why : Text} : grammars name = .error why →
      GrammarRun grammars name contents timeout
        (.failed false ("grammar " ++ Text.quoted name ++ " unavailable: " ++ why))
  | crashed {parser : Parser} {t : Binary64} {crash : Crash} : grammars name = .ok parser →
      t ∈ timeout → LimitFault t crash →
      GrammarRun grammars name contents timeout (.crashed crash)
  | answered {parser : Parser} {limit : Option Int} : grammars name = .ok parser →
      SetsLimit timeout limit →
      GrammarRun grammars name contents timeout
        (grammarReply name (effectiveTimeout timeout) (parser contents limit))

/-- The answers that are no fault: a tree, and a failure to parse, which is one of time only under a
timeout other than zero. -/
inductive ParseAnswer (timeout : Option Binary64) : Reply → Prop
  | tree (root : Node) : ParseAnswer timeout (.tree (some root))
  | failed (message : Text) : ParseAnswer timeout (.failed false message)
  | timedOut {t : Binary64} (message : Text) : t ∈ timeout → t.isZero = false →
      ParseAnswer timeout (.failed true message)

section

variable {grammars : Grammars} {name : Text} {contents : Contents} {timeout : Option Binary64}
  {reply : Reply}

theorem parseWithGrammar_run (grammars : Grammars) (name : Text) (contents : Contents)
    (timeout : Option Binary64) :
    GrammarRun grammars name contents timeout
      (parseWithGrammar grammars name contents timeout).2 := by
  have hanswered : ∀ {parser limit}, grammars name = .ok parser → SetsLimit timeout limit →
      GrammarRun grammars name contents timeout
        (grammarReply name (effectiveTimeout timeout) (parser contents limit)) := .answered
  unfold parseWithGrammar
  split
  · next why hnone => exact .unavailable hnone
  · next parser hparser =>
      split
      · next hnone =>
          rw [hnone] at hanswered
          exact hanswered hparser (setsLimit_none hnone)
      · next t hsome =>
          obtain ⟨ht, hzero⟩ := mem_effectiveTimeout.mp hsome
          split
          · next crash hlimit =>
              exact .crashed hparser ht (parseLimit_eq_error_iff.mp hlimit)
          · next limit hlimit =>
              obtain ⟨micros, hmicros, rfl⟩ := parseLimit_eq_ok_iff.mp hlimit
              rw [hsome] at hanswered
              exact hanswered hparser (ht ▸ .micros hzero hmicros)

/-- Whatever a parser does is answered with its tree or with a failure to parse. -/
theorem parseAnswer_grammarReply (name : Text) (timeout : Option Binary64)
    (answer : ParserReply) :
    ParseAnswer timeout (grammarReply name (effectiveTimeout timeout) answer) := by
  cases heffective : effectiveTimeout timeout with
  | none =>
      cases answer with
      | tree root =>
          cases root with
          | none => exact .failed _
          | some root => exact .tree root
      | noTree => exact .failed _
      | raised stopped message => cases stopped <;> exact .failed _
  | some t =>
      obtain ⟨ht, hzero⟩ := mem_effectiveTimeout.mp heffective
      cases answer with
      | tree root =>
          cases root with
          | none => exact .failed _
          | some root => exact .tree root
      | noTree => exact .timedOut _ ht hzero
      | raised stopped message =>
          cases stopped with
          | false => exact .failed _
          | true => exact .timedOut _ ht hzero

theorem grammarReply_eq_tree_iff {effective : Option Binary64} {answer : ParserReply}
    {root : Node} :
    grammarReply name effective answer = .tree (some root) ↔ answer = .tree (some root) := by
  unfold grammarReply
  simp only
  split <;> simp

theorem ParseAnswer.ne_crashed (h : ParseAnswer timeout reply) (crash : Crash) :
    reply ≠ .crashed crash := by
  rintro rfl
  cases h

/-- An attempt crashes exactly if there is a parser, and no limit that it could be given. -/
theorem GrammarRun.crashed_iff (h : GrammarRun grammars name contents timeout reply)
    {crash : Crash} :
    reply = .crashed crash ↔
      (∃ parser, grammars name = .ok parser) ∧ ∃ t ∈ timeout, LimitFault t crash := by
  cases h with
  | unavailable hnone =>
      refine iff_of_false nofun ?_
      rintro ⟨⟨parser, hparser⟩, _⟩
      rw [hnone] at hparser
      cases hparser
  | @crashed parser t crash' hparser ht hfault =>
      constructor
      · rintro ⟨⟩
        exact ⟨⟨parser, hparser⟩, t, ht, hfault⟩
      · rintro ⟨_, t', ht', hfault'⟩
        cases Option.mem_unique ht ht'
        exact congrArg Reply.crashed (hfault.unique hfault')
  | answered hparser hsets =>
      refine iff_of_false ((parseAnswer_grammarReply ..).ne_crashed crash) ?_
      rintro ⟨_, t, ht, hfault⟩
      exact hsets.not_limitFault t ht crash hfault

/-- An attempt that does not crash gives a tree or fails to parse. -/
theorem GrammarRun.parseAnswer (h : GrammarRun grammars name contents timeout reply)
    (hcalm : ∀ crash, reply ≠ .crashed crash) : ParseAnswer timeout reply := by
  cases h with
  | unavailable _ => exact .failed _
  | crashed _ _ _ => exact absurd rfl (hcalm _)
  | answered _ _ => exact parseAnswer_grammarReply ..

/-- The trees are those of the parser under the limit that the timeout sets. -/
theorem GrammarRun.tree_iff (h : GrammarRun grammars name contents timeout reply) {root : Node} :
    reply = .tree (some root) ↔ ∃ parser limit, grammars name = .ok parser ∧
      SetsLimit timeout limit ∧ parser contents limit = .tree (some root) := by
  cases h with
  | unavailable hnone =>
      refine iff_of_false nofun ?_
      rintro ⟨parser, _, hparser, _⟩
      rw [hnone] at hparser
      cases hparser
  | crashed _ ht hfault =>
      refine iff_of_false nofun ?_
      rintro ⟨_, _, _, hsets, _⟩
      exact hsets.not_limitFault _ ht _ hfault
  | @answered parser limit hparser hsets =>
      rw [grammarReply_eq_tree_iff]
      constructor
      · intro htree
        exact ⟨parser, limit, hparser, hsets, htree⟩
      · rintro ⟨parser', limit', hparser', hsets', htree⟩
        rw [hparser] at hparser'
        cases hparser'
        rw [hsets.unique hsets']
        exact htree

end

/-! ## Selection -/

/-- The languages of the registry all have grammars. -/
def Registry.OfGrammars (registry : Registry) : Prop :=
  ∀ e ∈ registry.entries, ∃ name, e.provider = .grammar name

/-- The languages of a table all have grammars. -/
theorem Registry.ofGrammars_ofTable {table : Json} {registry : Registry}
    (h : ofTable table = .ok registry) : registry.OfGrammars := by
  obtain ⟨_, values, drafts, _, _, hread, hmade⟩ := ofTable_eq_ok h
  intro e he
  obtain ⟨draft, hdraft, hmade⟩ := exists_of_mem_left hmade he
  obtain ⟨value, _, hread⟩ := exists_of_mem_right hread hdraft
  obtain ⟨_, name, _, _, _, _, _, _, rfl⟩ := readLanguage_eq_ok hread
  exact ⟨_, hmade.provider⟩

/-- The language has a grammar whose parser can be loaded. -/
def Entry.Available (grammars : Grammars) (e : Entry) : Prop :=
  ∃ name, e.provider = .grammar name ∧ ∃ parser, grammars name = .ok parser

section

variable {grammars : Grammars} {registry : Registry} {contents : Contents}
  {timeout : Option Binary64} {d : Document} {crash : Crash}

theorem Entry.reply_run {e : Entry} {name : Text} (h : e.provider = .grammar name) :
    GrammarRun grammars name contents (effectiveTimeout timeout)
      (e.reply grammars contents timeout) := by
  rw [Entry.reply, h]
  exact parseWithGrammar_run ..

theorem Entry.reply_crashed_iff {e : Entry} (h : ∃ name, e.provider = .grammar name) :
    e.reply grammars contents timeout = .crashed crash ↔
      e.Available grammars ∧ ∃ t ∈ timeout, LimitFault t crash := by
  obtain ⟨name, hname⟩ := h
  have havailable : e.Available grammars ↔ ∃ parser, grammars name = .ok parser := by
    constructor
    · rintro ⟨name', hname', hparser⟩
      cases hname.symm.trans hname'
      exact hparser
    · intro hparser
      exact ⟨name, hname, hparser⟩
  rw [(Entry.reply_run hname).crashed_iff, limitFault_effectiveTimeout, havailable]

/-- Under a timeout that has no limit no grammar gives a tree. -/
theorem Entry.reply_ne_tree {e : Entry} (h : ∃ name, e.provider = .grammar name)
    (hfault : ∃ t ∈ timeout, LimitFault t crash) (root : Node) :
    e.reply grammars contents timeout ≠ .tree (some root) := by
  obtain ⟨name, hname⟩ := h
  intro htree
  obtain ⟨_, _, _, hsets, _⟩ := (Entry.reply_run hname).tree_iff.mp htree
  obtain ⟨t, ht, hnone⟩ := limitFault_effectiveTimeout.mpr hfault
  exact hsets.not_limitFault t ht crash hnone

theorem Entry.Decides.exists_tree {e : Entry} {r : Reply} {found : Option (Node × Text)}
    (h : e.Decides r (.ok found)) : ∃ root, r = .tree (some root) := by
  cases h
  exact ⟨_, rfl⟩

/-- Languages with grammars make selection crash exactly if one of them has a parser, and the
timeout no limit. -/
theorem select_eq_error_iff (hgrammars : registry.OfGrammars) :
    select grammars registry timeout d = .error crash ↔
      (∃ e ∈ registry.entries, e.Available grammars) ∧ ∃ t ∈ timeout, LimitFault t crash := by
  obtain ⟨tried, htrace⟩ := exists_trace_select grammars registry timeout d
  have hcrash : ∀ e ∈ registry.prioritized d.extension, ∀ crash,
      e.reply grammars d.contents timeout = .crashed crash ↔
        e.Available grammars ∧ ∃ t ∈ timeout, LimitFault t crash :=
    fun e he _ => Entry.reply_crashed_iff (hgrammars e (mem_prioritized.mp he))
  constructor
  · intro herror
    rw [herror] at htrace
    obtain ⟨e, he, hdecides⟩ := htrace.exists_decides nofun
    obtain ⟨havailable, hfault⟩ := (hcrash e he crash).mp hdecides.eq_crashed
    exact ⟨⟨e, mem_prioritized.mp he, havailable⟩, hfault⟩
  · rintro ⟨⟨e, he, havailable⟩, hfault⟩
    have hreply := (hcrash e (mem_prioritized.mpr he) crash).mpr ⟨havailable, hfault⟩
    have hfound : select grammars registry timeout d ≠ .ok none := by
      intro hnone
      obtain ⟨htried, hskip⟩ := htrace.eq_none_iff.mp hnone
      have hskips := hskip e (htried ▸ mem_prioritized.mpr he)
      rw [hreply] at hskips
      cases hskips
    obtain ⟨e', he', hdecides⟩ := htrace.exists_decides hfound
    cases hselect : select grammars registry timeout d with
    | error crash' =>
        rw [hselect] at hdecides
        obtain ⟨_, t', ht', hfault'⟩ := (hcrash e' he' crash').mp hdecides.eq_crashed
        obtain ⟨t, ht, hfault⟩ := hfault
        cases Option.mem_unique ht ht'
        rw [hfault'.unique hfault]
    | ok found =>
        rw [hselect] at hdecides
        obtain ⟨root, htree⟩ := hdecides.exists_tree
        exact absurd htree (Entry.reply_ne_tree (hgrammars e' (mem_prioritized.mp he')) hfault root)

/-- Under a timeout that has no limit no document is read as any language. -/
theorem windows_of_limitFault {config : Config} (hgrammars : registry.OfGrammars)
    (havailable : ∃ e ∈ registry.entries, e.Available grammars)
    (hfault : ∃ t ∈ config.timeout, LimitFault t crash) (hne : d.contents ≠ #[]) :
    ∃ chunks, chunkDocument grammars registry config d = .ok chunks ∧
      List.Forall₂ (d.ChunkAt plainLanguage .lineWindow)
        (config.window.spans (.ofContents d.contents)) chunks := by
  have herror := (select_eq_error_iff (d := d) hgrammars).mpr ⟨havailable, hfault⟩
  obtain ⟨chunks, hchunks, hcases⟩ := chunkDocument_cases grammars registry config d
  rcases hcases with ⟨hempty, _⟩ | ⟨_, ⟨root, language, spans, hrun⟩ | hwindows⟩
  · exact absurd hempty hne
  · cases herror.symm.trans hrun.selected
  · exact ⟨chunks, hchunks, hwindows⟩

theorem attemptsWith_getElem?_zero (entries : List Entry) :
    (attemptsWith grammars contents timeout entries)[0]?
      = entries[0]?.map (Entry.attempt grammars contents timeout) := by
  cases entries with
  | nil => rfl
  | cons e rest =>
      rw [attemptsWith]
      split <;> rfl

/-- An attempt that does not end the run is followed by one with the next entry. -/
theorem attemptsWith_getElem?_succ {a : Attempt} (ha : a.verdict.isFinal = false) :
    ∀ {entries : List Entry} {i : Nat},
      (attemptsWith grammars contents timeout entries)[i]? = some a →
      (attemptsWith grammars contents timeout entries)[i + 1]?
        = entries[i + 1]?.map (Entry.attempt grammars contents timeout)
  | [], _, h => by cases h
  | e :: rest, i, h => by
      rw [attemptsWith] at h ⊢
      split at h
      · next hends =>
          rw [List.mem_singleton.mp (List.mem_of_getElem? h), hends] at ha
          cases ha
      · next hgoes =>
          rw [if_neg hgoes, List.getElem?_cons_succ, List.getElem?_cons_succ]
          cases i with
          | zero => exact attemptsWith_getElem?_zero rest
          | succ i =>
              rw [List.getElem?_cons_succ] at h
              exact attemptsWith_getElem?_succ ha h

/-- An attempt with a grammar ends with a tree of its parser or a failure to parse, out of time only
under a timeout other than zero, and a failure leads to the attempt with the next entry.  It
crashes, and selection from grammars with it, exactly if a parser is there and the timeout has no
limit in microseconds. -/
theorem grammars_crash_iff_no_limit (grammars : Grammars) (config : Config) :
    (∀ name contents, ∃ call reply,
      (Provider.grammar name).parse grammars contents config.timeout = (call, reply) ∧
      (∀ crash, reply = .crashed crash ↔
        (∃ parser, grammars name = .ok parser) ∧ ∃ t ∈ config.timeout, LimitFault t crash) ∧
      ((∀ crash, reply ≠ .crashed crash) → ParseAnswer config.timeout reply) ∧
      ∀ root, reply = .tree (some root) ↔ ∃ parser limit, grammars name = .ok parser ∧
        SetsLimit config.timeout limit ∧ parser contents limit = .tree (some root)) ∧
    (∀ registry : Registry, registry.OfGrammars → ∀ d crash,
      select grammars registry config.timeout d = .error crash ↔
        (∃ e ∈ registry.entries, e.Available grammars) ∧
          ∃ t ∈ config.timeout, LimitFault t crash) ∧
    ∀ (registry : Registry) (d : Document) i a timedOut message,
      (attempts grammars registry config.timeout d)[i]? = some a →
      a.verdict = .failed timedOut message →
      (attempts grammars registry config.timeout d)[i + 1]?
        = (registry.prioritized d.extension)[i + 1]?.map
            (Entry.attempt grammars d.contents config.timeout) := by
  refine ⟨fun name contents => ?_, fun registry hgrammars d crash => ?_, ?_⟩
  · have hrun := parseWithGrammar_run grammars name contents config.timeout
    exact ⟨_, _, rfl, fun _ => hrun.crashed_iff, hrun.parseAnswer, fun _ => hrun.tree_iff⟩
  · exact select_eq_error_iff hgrammars
  · intro registry d i a timedOut message ha hfailed
    have hgoes : a.verdict.isFinal = false := by
      rw [hfailed]
      rfl
    exact attemptsWith_getElem?_succ hgoes ha

end

/-- A grammar that cannot be loaded, and one that reads everything. -/
def onePlainGrammar : Grammars
  | "plain" => .ok fun contents _ => .tree (some ⟨"text", 0, contents.size, false, []⟩)
  | _ => .error "not installed"

def absentAndPlain : Registry where
  entries := [⟨"absent", .grammar "absent", [], .both⟩, ⟨"plain", .grammar "plain", [], .both⟩]
  names_nodup := by decide

/-- A timeout is accepted that no clock reaches. -/
def endlessConfig : Config :=
  { Config.standard with timeout := some (.infinity false), timeout_nonneg := rfl }

theorem verdict_absent (timeout : Option Binary64) :
    (Entry.attempt onePlainGrammar #[120] timeout ⟨"absent", .grammar "absent", [], .both⟩).verdict
      = .failed false ("grammar " ++ Text.quoted "absent" ++ " unavailable: " ++ "not installed") :=
  rfl

theorem grammars_crash_iff_no_limit_endless :
    absentAndPlain.OfGrammars ∧
    select onePlainGrammar absentAndPlain endlessConfig.timeout ⟨#[120], none, "x"⟩
      = .error .infiniteLimit ∧
    (∀ crash, select onePlainGrammar absentAndPlain Config.standard.timeout ⟨#[120], none, "x"⟩
      ≠ .error crash) ∧
    ∃ a message,
      (attempts onePlainGrammar absentAndPlain Config.standard.timeout ⟨#[120], none, "x"⟩)[0]?
        = some a ∧
      a.verdict = .failed false message ∧
      (attempts onePlainGrammar absentAndPlain Config.standard.timeout ⟨#[120], none, "x"⟩)[1]?
        = some (Entry.attempt onePlainGrammar #[120] Config.standard.timeout
            ⟨"plain", .grammar "plain", [], .both⟩) := by
  have hgrammars : absentAndPlain.OfGrammars := by
    simp [Registry.OfGrammars, absentAndPlain]
  have hplain : ∃ e ∈ absentAndPlain.entries, e.Available onePlainGrammar :=
    ⟨_, List.mem_cons_of_mem _ List.mem_cons_self, "plain", rfl, _, rfl⟩
  have hfailed := verdict_absent Config.standard.timeout
  obtain ⟨_, hendless, _⟩ := grammars_crash_iff_no_limit onePlainGrammar endlessConfig
  obtain ⟨_, hcrash, hnext⟩ := grammars_crash_iff_no_limit onePlainGrammar Config.standard
  have hnext := hnext absentAndPlain ⟨#[120], none, "x"⟩ 0
  have hlimit := setsLimit_standard
  generalize Config.standard.timeout = timeout at *
  have hfirst : (attempts onePlainGrammar absentAndPlain timeout ⟨#[120], none, "x"⟩)[0]?
      = some (Entry.attempt onePlainGrammar #[120] timeout
          ⟨"absent", .grammar "absent", [], .both⟩) :=
    attemptsWith_getElem?_zero absentAndPlain.entries
  refine ⟨hgrammars, ?_, ?_, _, _, hfirst, hfailed, hnext _ _ _ hfirst hfailed⟩
  · exact (hendless absentAndPlain hgrammars _ _).mpr ⟨hplain, _, rfl, .infinity false⟩
  · intro crash herror
    obtain ⟨_, t, ht, hfault⟩ := (hcrash absentAndPlain hgrammars _ _).mp herror
    exact hlimit.not_limitFault t ht crash hfault

end SyntaxChunks
