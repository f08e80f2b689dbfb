/-
# `Proofs.LowerCase` — a text in lower case stays as it is

The mappings of `Text.lower` lead from runs of codes to runs of codes, and no
run that is led to meets one that is led from: one check over all pairs of runs
says so (`loweredRun_apart`).  So a lower-case code is mapped to itself.  The
same check sets the lower-case codes apart from the blanks and from the dot, so
that one of these stands at an end of a text in lower case only if it stood
there before.
-/
import Mathlib.Data.List.Basic
import SyntaxChunks.Text.Lower

namespace SyntaxChunks.Text

/-! ## Runs of codes -/

/-- The codes from a first to a last one, in steps. -/
structure CodeRun where
  first : Nat
  last : Nat
  stride : Nat

namespace CodeRun

/-- The code is of the run. -/
def Has (s : CodeRun) (code : Nat) : Prop :=
  s.first ≤ code ∧ code ≤ s.last ∧ (code - s.first) % s.stride = 0

/-- All codes of the run are even, or all are odd. -/
def keepsParity (s : CodeRun) : Bool :=
  Nat.beq s.stride 2 || Nat.beq s.first s.last

/-- One run ends before the other begins, or one is of even codes and the other of odd ones. -/
def apart (s t : CodeRun) : Bool :=
  Nat.blt s.last t.first || Nat.blt t.last s.first ||
    (s.keepsParity && t.keepsParity && Nat.beq ((s.first + t.first) % 2) 1)

variable {s t : CodeRun} {code : Nat}

theorem Has.mod_two (h : s.Has code) (hs : s.keepsParity = true) :
    code % 2 = s.first % 2 := by
  obtain ⟨hfirst, hlast, hstride⟩ := h
  rw [keepsParity, Bool.or_eq_true, Nat.beq_eq, Nat.beq_eq] at hs
  rcases hs with htwo | hone
  · rw [htwo] at hstride
    omega
  · have hcode : code = s.first := by omega
    rw [hcode]

theorem Has.not_of_apart (h : s.Has code) (hapart : s.apart t = true) : ¬ t.Has code := by
  intro ht
  simp only [apart, Bool.or_eq_true, Bool.and_eq_true, Nat.blt_eq, Nat.beq_eq] at hapart
  rcases hapart with (hbelow | habove) | ⟨⟨hs, hparity⟩, hodd⟩
  · exact absurd (Nat.le_trans ht.1 h.2.1) (Nat.not_le.mpr hbelow)
  · exact absurd (Nat.le_trans h.1 ht.2.1) (Nat.not_le.mpr habove)
  · have hcode := h.mod_two hs
    have hcode' := ht.mod_two hparity
    omega

end CodeRun

/-! ## Codes -/

/-- The codes that a mapping leads from. -/
def capitalRun (r : Nat × Nat × Nat × Int) : CodeRun :=
  ⟨r.1, r.2.1, r.2.2.1⟩

/-- The codes that a mapping leads to. -/
def loweredRun (r : Nat × Nat × Nat × Int) : CodeRun :=
  ⟨(r.1 + r.2.2.2).toNat, (r.2.1 + r.2.2.2).toNat, r.2.2.1⟩

/-- The codes that no mapping leads to: `İ`, the dot, those of no character, the blanks, and those
that a mapping leads from. -/
def unloweredRuns : List CodeRun :=
  ⟨304, 304, 1⟩ :: ⟨46, 46, 1⟩ :: ⟨0xD800, 0xDFFF, 1⟩ ::
    (blankRanges.map fun r => ⟨r.1, r.2, 1⟩) ++ lowerRanges.map capitalRun

theorem loweredRun_apart : (lowerRanges.all fun r => 0 ≤ r.1 + r.2.2.2 &&
    Nat.blt (loweredRun r).last 0x110000 && unloweredRuns.all (loweredRun r).apart) = true := by
  decide +kernel

/-- A code stays, or a mapping leads from it to its lower-case code. -/
theorem lowerCode_cases (code : Nat) :
    lowerCode code = code ∨
      ∃ r ∈ lowerRanges, (capitalRun r).Has code ∧ (loweredRun r).Has (lowerCode code) := by
  unfold lowerCode
  split
  · next r hr =>
      have hmem := List.mem_of_find?_eq_some hr
      have hhas := List.find?_some hr
      have hstart := List.all_eq_true.mp loweredRun_apart r hmem
      simp only [Bool.and_eq_true, decide_eq_true_eq, beq_iff_eq] at hhas hstart
      obtain ⟨⟨hfirst, hlast⟩, hstride⟩ := hhas
      have hshift : (code + r.2.2.2).toNat - (r.1 + r.2.2.2).toNat = code - r.1 := by omega
      refine .inr ⟨r, hmem, ⟨hfirst, hlast, hstride⟩, ?_, ?_, ?_⟩
      · exact Int.toNat_le_toNat (by omega)
      · exact Int.toNat_le_toNat (by omega)
      · rw [loweredRun, hshift]
        exact hstride
  · exact .inl rfl

theorem loweredRun_not_has {r : Nat × Nat × Nat × Int} {s : CodeRun} {code : Nat}
    (hr : r ∈ lowerRanges) (hs : s ∈ unloweredRuns) (h : (loweredRun r).Has code) :
    ¬ s.Has code := by
  have hcheck := List.all_eq_true.mp loweredRun_apart r hr
  rw [Bool.and_eq_true, List.all_eq_true] at hcheck
  exact h.not_of_apart (hcheck.2 s hs)

/-- No mapping leads to a code of these runs, so only a code that stays is of one. -/
theorem lowerCode_eq_of_has {code : Nat} {s : CodeRun} (hs : s ∈ unloweredRuns)
    (h : s.Has (lowerCode code)) : lowerCode code = code := by
  rcases lowerCode_cases code with hsame | ⟨r, hr, _, hhas⟩
  · exact hsame
  · exact absurd h (loweredRun_not_has hr hs hhas)

theorem lowerCode_lowerCode (code : Nat) : lowerCode (lowerCode code) = lowerCode code := by
  rcases lowerCode_cases (lowerCode code) with hsame | ⟨r, hr, hhas, _⟩
  · exact hsame
  · have hcapital : capitalRun r ∈ unloweredRuns :=
      List.mem_append_right _ (List.mem_map_of_mem hr)
    have hsame := lowerCode_eq_of_has hcapital hhas
    rw [hsame, hsame]

/-- The lower-case code of a character is that of a character. -/
theorem isValidChar_lowerCode {code : Nat} (h : code.isValidChar) :
    (lowerCode code).isValidChar := by
  rcases lowerCode_cases code with hsame | ⟨r, hr, _, hhas⟩
  · rw [hsame]
    exact h
  · have hlast := List.all_eq_true.mp loweredRun_apart r hr
    simp only [Bool.and_eq_true, Nat.blt_eq] at hlast
    have hsurrogate := loweredRun_not_has hr (s := ⟨0xD800, 0xDFFF, 1⟩)
      (List.mem_append_left _ (by simp)) hhas
    have hbelow := hhas.2.1
    simp only [CodeRun.Has, Nat.mod_one, and_true, not_and, Nat.not_le] at hsurrogate
    simp only [Nat.isValidChar]
    omega

/-! ## Code points -/

/-- The code point is in lower case: it stands for itself. -/
def Lowered : CodePoint → Prop
  | .char c => c ≠ 'İ' ∧ lowerCode c.toNat = c.toNat
  | .surrogate _ => True

instance : DecidablePred Lowered
  | .char c => inferInstanceAs (Decidable (c ≠ 'İ' ∧ lowerCode c.toNat = c.toNat))
  | .surrogate _ => inferInstanceAs (Decidable True)

/-- The second code point may stand for the first in lower case, and is blank or a dot only if that
one is. -/
structure LowersTo (c d : CodePoint) : Prop where
  lowered : Lowered d
  blank : isBlank d = true → isBlank c = true
  dot : d = .char '.' → c = .char '.'

section

variable {c d : Char}

theorem lowerChar_of_lowered (h : Lowered (.char c)) : lowerChar c = [c] := by
  rw [lowerChar, if_neg (by simpa using h.1), h.2, Char.ofNat_toNat]

theorem ne_sigma_of_lowered (h : Lowered (.char c)) : c ≠ 'Σ' := by
  rintro rfl
  have hmoved : lowerCode 'Σ'.toNat ≠ 'Σ'.toNat := by decide +kernel
  exact hmoved h.2

theorem toNat_ofNat_lowerCode (c : Char) :
    (Char.ofNat (lowerCode c.toNat)).toNat = lowerCode c.toNat := by
  have hvalid := isValidChar_lowerCode c.valid
  have hchar : Char.ofNat (lowerCode c.toNat) = Char.ofNatAux (lowerCode c.toNat) hvalid :=
    dif_pos hvalid
  rw [hchar]
  rfl

/-- Of the runs that no mapping leads to, a lower-case character is only if it was there before. -/
theorem ofNat_lowerCode_eq_of_has {s : CodeRun} (hs : s ∈ unloweredRuns)
    (h : s.Has (Char.ofNat (lowerCode c.toNat)).toNat) : Char.ofNat (lowerCode c.toNat) = c := by
  rw [toNat_ofNat_lowerCode] at h
  rw [lowerCode_eq_of_has hs h, Char.ofNat_toNat]

theorem lowersTo_ofNat_lowerCode (hc : c ≠ 'İ') :
    LowersTo (.char c) (.char (Char.ofNat (lowerCode c.toNat))) where
  lowered := by
    refine ⟨fun hdotted => hc ?_, ?_⟩
    · rw [← hdotted]
      refine (ofNat_lowerCode_eq_of_has (s := ⟨304, 304, 1⟩) List.mem_cons_self ?_).symm
      rw [hdotted]
      exact ⟨by decide, by decide, by decide⟩
    · rw [toNat_ofNat_lowerCode, lowerCode_lowerCode]
  blank hblank := by
    obtain ⟨r, hr, hrange⟩ := List.any_eq_true.mp hblank
    rw [Bool.and_eq_true, decide_eq_true_eq, decide_eq_true_eq] at hrange
    have hrun : (⟨r.1, r.2, 1⟩ : CodeRun) ∈ unloweredRuns := by
      refine List.mem_append_left _ ?_
      iterate 3 apply List.mem_cons_of_mem
      exact List.mem_map_of_mem (f := fun r : Nat × Nat => (⟨r.1, r.2, 1⟩ : CodeRun)) hr
    rw [ofNat_lowerCode_eq_of_has hrun ⟨hrange.1, hrange.2, Nat.mod_one _⟩] at hblank
    exact hblank
  dot hdot := by
    have hdot : Char.ofNat (lowerCode c.toNat) = '.' := CodePoint.char.inj hdot
    rw [← hdot]
    refine congrArg CodePoint.char
      (ofNat_lowerCode_eq_of_has (s := ⟨46, 46, 1⟩) (by simp [unloweredRuns]) ?_).symm
    rw [hdot]
    exact ⟨by decide, by decide, by decide⟩

/-- What stands for `İ` and for sigma is in lower case, and neither blank nor a dot. -/
theorem lowersTo_exception (c : CodePoint) (hd : d ∈ ['i', '\u0307', 'σ', 'ς']) :
    LowersTo c (.char d) := by
  obtain ⟨hlowered, hblank, hdot⟩ :
      Lowered (.char d) ∧ isBlank (.char d) = false ∧ CodePoint.char d ≠ .char '.' := by
    simp only [List.mem_cons, List.not_mem_nil, or_false] at hd
    rcases hd with rfl | rfl | rfl | rfl
    all_goals decide +kernel
  refine ⟨hlowered, fun h => ?_, fun h => absurd h hdot⟩
  rw [hblank] at h
  cases h

theorem lowersTo_of_mem_lowerChar (h : d ∈ lowerChar c) : LowersTo (.char c) (.char d) := by
  rw [lowerChar] at h
  split at h
  · exact lowersTo_exception c (List.mem_append_left ['σ', 'ς'] h)
  · next hc =>
      rw [List.mem_singleton.mp h]
      exact lowersTo_ofNat_lowerCode (by simpa using hc)

end

/-! ## Texts -/

section

variable {cs before : Text}

/-- Lower case puts one or more code points in place of each. -/
theorem lowerPoint_eq_cons (before behind : Text) (c : CodePoint) :
    ∃ first more, (∀ d ∈ first :: more, LowersTo c d) ∧
      lowerPoint before behind c = first :: more := by
  cases c with
  | surrogate s =>
      exact ⟨.surrogate s, [], List.forall_mem_singleton.mpr ⟨trivial, id, id⟩, rfl⟩
  | char c =>
      rw [lowerPoint]
      split
      · refine ⟨_, [], List.forall_mem_singleton.mpr (lowersTo_exception c ?_), rfl⟩
        split
        · decide
        · decide
      · obtain ⟨first, more, hform⟩ : ∃ first more, lowerChar c = first :: more := by
          rw [lowerChar]
          split
          · exact ⟨_, _, rfl⟩
          · exact ⟨_, _, rfl⟩
        refine ⟨first, ofChars more, fun d hd => ?_, by rw [hform]; rfl⟩
        obtain ⟨b, hb, rfl⟩ : ∃ b ∈ first :: more, CodePoint.char b = d := List.mem_map.mp hd
        exact lowersTo_of_mem_lowerChar (hform ▸ hb)

theorem lowerAfter_cons (before : Text) (c : CodePoint) (cs : Text) :
    ∃ first more, (∀ d ∈ first :: more, LowersTo c d) ∧
      lowerAfter before (c :: cs) = first :: more ++ lowerAfter (c :: before) cs := by
  obtain ⟨first, more, hform, heq⟩ := lowerPoint_eq_cons before cs c
  exact ⟨first, more, hform, by rw [lowerAfter, heq]⟩

theorem lowered_of_mem_lowerAfter :
    ∀ {cs before : Text}, ∀ d ∈ lowerAfter before cs, Lowered d
  | [], _, _, hd => absurd hd List.not_mem_nil
  | c :: cs, before, d, hd => by
      obtain ⟨first, more, hform, heq⟩ := lowerAfter_cons before c cs
      rw [heq] at hd
      rcases List.mem_append.mp hd with hd | hd
      · exact (hform d hd).lowered
      · exact lowered_of_mem_lowerAfter d hd

theorem lowerPoint_of_lowered {c : CodePoint} (h : Lowered c) (before behind : Text) :
    lowerPoint before behind c = [c] := by
  cases c with
  | surrogate s => rfl
  | char c =>
      rw [lowerPoint, if_neg (by simpa using ne_sigma_of_lowered h), lowerChar_of_lowered h]
      rfl

theorem lowerAfter_of_lowered :
    ∀ {cs before : Text}, (∀ c ∈ cs, Lowered c) → lowerAfter before cs = cs
  | [], _, _ => rfl
  | c :: cs, before, h => by
      obtain ⟨hc, hcs⟩ := List.forall_mem_cons.mp h
      rw [lowerAfter, lowerPoint_of_lowered hc, lowerAfter_of_lowered hcs, List.singleton_append]

theorem head?_lowerAfter :
    ∀ d ∈ (lowerAfter before cs).head?, ∃ c ∈ cs.head?, LowersTo c d := by
  cases cs with
  | nil => exact nofun
  | cons c cs =>
      obtain ⟨first, more, hform, heq⟩ := lowerAfter_cons before c cs
      intro d hd
      rw [heq] at hd
      cases hd
      exact ⟨c, rfl, hform first List.mem_cons_self⟩

theorem getLast?_lowerAfter :
    ∀ {cs before : Text}, ∀ d ∈ (lowerAfter before cs).getLast?,
      ∃ c ∈ cs.getLast?, LowersTo c d
  | [], _, _, hd => by cases hd
  | [c], before, d, hd => by
      obtain ⟨first, more, hform, heq⟩ := lowerAfter_cons before c []
      rw [heq, lowerAfter, List.append_nil] at hd
      exact ⟨c, rfl, hform d (List.mem_of_getLast? hd)⟩
  | c :: c' :: cs, before, d, hd => by
      -- the last character is put in place of one of `c' :: cs`, which leaves some
      obtain ⟨first, more, _, heq⟩ := lowerAfter_cons before c (c' :: cs)
      obtain ⟨b, rest, hbehind⟩ : ∃ b rest, lowerAfter (c :: before) (c' :: cs) = b :: rest := by
        obtain ⟨first', more', _, heq'⟩ := lowerAfter_cons (c :: before) c' cs
        exact ⟨first', _, heq'⟩
      rw [heq, hbehind, List.getLast?_append_cons, ← hbehind] at hd
      obtain ⟨a, ha, hlowers⟩ := getLast?_lowerAfter d hd
      refine ⟨a, ?_, hlowers⟩
      rw [List.getLast?_cons_cons]
      exact ha

end

end SyntaxChunks.Text
