/-
# `Proofs.JsonText` — what is written of a value is read as the value

A string is read back code point by code point: behind a backslash stands a letter or the code of
a control, and everything else stands for itself.  A surrogate is never written by its code, so no
two are joined to a character (`readString_flatMap`).  A whole number is read back up to the first
code point that no number goes on with (`readScalar_int`).

From these, by induction on the value, every value is read back with what stands behind it left
(`ReadableWithin.readsBack`), and a line with the value as the value (`parseWithin_render`).  The
induction asks for a step of fuel per code point of the text, since every item and every member has
a code point that its value has not: the comma before it or the bracket behind it.
-/
import SyntaxChunks.Json.Reader
import SyntaxChunks.Json.Writer
import SyntaxChunks.Proofs.Numerals

namespace SyntaxChunks.Json

/-! ## Strings -/

section

variable {t rest behind : Text} {points : List StringPoint}

/-- No surrogate is written by its code. -/
def StringPoint.KeepsSurrogates (p : StringPoint) : Prop :=
  p.byCode = true → ∃ c, p.point = .char c

theorem joinPairs_eq_map : ∀ {points : List StringPoint},
    (∀ p ∈ points, p.KeepsSurrogates) → joinPairs points = points.map StringPoint.point := by
  intro points h
  fun_induction joinPairs points with
  | case1 => rfl
  | case2 high low rest c hpair ih =>
      obtain ⟨c, hc⟩ := (List.forall_mem_cons.mp h).1 rfl
      cases hc
  | case3 high low rest hpair ih =>
      obtain ⟨c, hc⟩ := (List.forall_mem_cons.mp h).1 rfl
      cases hc
  | case4 p rest _ ih =>
      rw [List.map_cons, ih (List.forall_mem_cons.mp h).2]

theorem stringPoints?_of_escape {letter : CodePoint} {c : Char} (hletter : letter ≠ .char 'u')
    (hescape : escaped? letter = some c) (h : stringPoints? rest = some (points, behind)) :
    stringPoints? (.char '\\' :: letter :: rest) = some (⟨.char c, false⟩ :: points, behind) := by
  rw [stringPoints?]
  · rw [hescape, h]
    rfl
  · intro a b c d rest hu
    exact absurd hu hletter

theorem stringPoints?_of_plain {c : CodePoint} (hquote : c ≠ .char '"')
    (hbackslash : c ≠ .char '\\') (hcode : ¬ c.code < 32)
    (h : stringPoints? rest = some (points, behind)) :
    stringPoints? (c :: rest) = some (⟨c, false⟩ :: points, behind) := by
  rw [stringPoints?]
  · rw [if_neg hcode, h]
    rfl
  · exact hquote
  · intro a b c d rest hc
    exact absurd hc hbackslash
  · intro letter rest hc
    exact absurd hc hbackslash

theorem stringPoints?_of_code {code : Nat} (hcode : code < 32)
    (h : stringPoints? rest = some (points, behind)) :
    stringPoints? (Text.ofChars ('\\' :: 'u' :: Text.hexDigits 4 code) ++ rest)
      = some (⟨.char (Char.ofNat code), true⟩ :: points, behind) := by
  have hdigits : ∀ n < 32, Text.hexDigits 4 n = ['0', '0', Text.hexDigit (n / 16),
      Text.hexDigit (n % 16)] ∧
        hexCode? '0' '0' (Text.hexDigit (n / 16)) (Text.hexDigit (n % 16)) = some n := by
    decide
  have hpoint : pointOfCode code = .char (Char.ofNat code) := dif_neg (by omega)
  rw [(hdigits code hcode).1, ← hpoint]
  simp only [Text.ofChars, List.map_cons, List.map_nil, List.cons_append, List.nil_append]
  rw [stringPoints?, (hdigits code hcode).2, h]
  rfl

/-- A character is written by a letter, by its code or as it is. -/
theorem stringChar_cases (c : Char) :
    (∃ letter, stringChar c = ['\\', letter] ∧ letter ≠ 'u' ∧ escaped? (.char letter) = some c) ∨
      (c.toNat < 32 ∧ stringChar c = '\\' :: 'u' :: Text.hexDigits 4 c.toNat) ∨
      (c ≠ '"' ∧ c ≠ '\\' ∧ ¬ c.toNat < 32 ∧ stringChar c = [c]) := by
  by_cases hletter : c ∈ ['"', '\\', '\n', '\r', '\t', '\x0c', '\x08']
  · refine .inl ?_
    simp only [List.mem_cons, List.not_mem_nil, or_false] at hletter
    rcases hletter with rfl | rfl | rfl | rfl | rfl | rfl | rfl
    all_goals exact ⟨_, rfl, by decide, rfl⟩
  · simp only [List.mem_cons, List.not_mem_nil, or_false, not_or] at hletter
    obtain ⟨hquote, hbackslash, hline, hreturn, htab, hfeed, hback⟩ := hletter
    refine .inr ?_
    simp only [stringChar, beq_iff_eq, hquote, hbackslash, hline, hreturn, htab, hfeed, hback,
      if_false]
    by_cases hcontrol : c.toNat < 32
    · exact .inl ⟨hcontrol, if_pos hcontrol⟩
    · exact .inr ⟨hquote, hbackslash, hcontrol, if_neg hcontrol⟩

/-- A code point of a string is read back, and no surrogate by its code. -/
theorem stringPoints?_stringPoint (c : CodePoint) (h : stringPoints? rest = some (points, behind)) :
    ∃ p : StringPoint, p.point = c ∧ p.KeepsSurrogates ∧
      stringPoints? (stringPoint c ++ rest) = some (p :: points, behind) := by
  cases c with
  | surrogate s =>
      refine ⟨⟨.surrogate s, false⟩, rfl, nofun, stringPoints?_of_plain nofun nofun ?_ h⟩
      exact Nat.not_lt.mpr (Nat.le_trans (by decide) s.code_ge)
  | char c =>
      rw [stringPoint]
      rcases stringChar_cases c with ⟨letter, hwritten, hletter, hescape⟩ | ⟨hcontrol, hwritten⟩ |
        ⟨hquote, hbackslash, hcode, hwritten⟩
      · rw [hwritten]
        exact ⟨⟨.char c, false⟩, rfl, nofun,
          stringPoints?_of_escape (fun hu => hletter (CodePoint.char.inj hu)) hescape h⟩
      · rw [hwritten]
        have hread := stringPoints?_of_code hcontrol h
        rw [Char.ofNat_toNat] at hread
        exact ⟨⟨.char c, true⟩, rfl, fun _ => ⟨c, rfl⟩, hread⟩
      · rw [hwritten]
        exact ⟨⟨.char c, false⟩, rfl, nofun, stringPoints?_of_plain
          (fun hc => hquote (CodePoint.char.inj hc)) (fun hc => hbackslash (CodePoint.char.inj hc))
          hcode h⟩

theorem stringPoints?_flatMap (rest : Text) : ∀ t : Text, ∃ points : List StringPoint,
    points.map StringPoint.point = t ∧ (∀ p ∈ points, p.KeepsSurrogates) ∧
      stringPoints? (t.flatMap stringPoint ++ .char '"' :: rest) = some (points, rest)
  | [] => ⟨[], rfl, nofun, by simp [stringPoints?]⟩
  | c :: t => by
      obtain ⟨points, hpoints, hkeeps, hread⟩ := stringPoints?_flatMap rest t
      obtain ⟨p, hp, hkeep, hread⟩ := stringPoints?_stringPoint c hread
      refine ⟨p :: points, ?_, List.forall_mem_cons.mpr ⟨hkeep, hkeeps⟩, ?_⟩
      · rw [List.map_cons, hp, hpoints]
      · rw [List.flatMap_cons, List.append_assoc]
        exact hread

/-- A string is read back, with the surrogates in it, up to its closing quote. -/
theorem readString_flatMap (t rest : Text) :
    readString (t.flatMap stringPoint ++ .char '"' :: rest) = .ok (t, rest) := by
  obtain ⟨points, hpoints, hkeeps, hread⟩ := stringPoints?_flatMap rest t
  rw [readString, hread]
  simp only [joinPairs_eq_map hkeeps, hpoints]

end

/-! ## Numbers -/

/-- A number that stands before the text ends there. -/
def EndsNumber (t : Text) : Prop :=
  ∀ c ∈ t.head?, isDigit c = false ∧ c ≠ .char '.' ∧ c ≠ .char 'e' ∧ c ≠ .char 'E'

section

variable {limits : Limits} {rest : Text}

theorem isDigit_of_mem_numeral {n : Nat} :
    ∀ c ∈ Text.ofChars (Number.numeral n), isDigit c = true := by
  intro c hc
  obtain ⟨a, ha, rfl⟩ := List.mem_map.mp hc
  exact Number.isDigit_of_mem_numeral a ha

theorem EndsNumber.takeWhile (h : EndsNumber rest) : rest.takeWhile isDigit = [] := by
  cases rest with
  | nil => rfl
  | cons c rest => exact List.takeWhile_cons_of_neg (Bool.eq_false_iff.mp (h c rfl).1)

theorem EndsNumber.dropWhile (h : EndsNumber rest) : rest.dropWhile isDigit = rest := by
  cases rest with
  | nil => rfl
  | cons c rest => exact List.dropWhile_cons_of_neg (Bool.eq_false_iff.mp (h c rfl).1)

theorem wholePart_numeral (n : Nat) (h : EndsNumber rest) :
    wholePart (Text.ofChars (Number.numeral n) ++ rest)
      = (Text.ofChars (Number.numeral n), rest) := by
  unfold wholePart
  split
  · next behind hzero =>
      obtain ⟨c, front, hfront⟩ := List.exists_cons_of_ne_nil (Number.numeral_ne_nil n)
      rw [hfront] at hzero ⊢
      cases hzero
      obtain ⟨_, rfl⟩ := Number.eq_zero_of_numeral_eq_zero_cons hfront
      rfl
  · rw [List.takeWhile_append_of_pos isDigit_of_mem_numeral,
      List.dropWhile_append_of_pos isDigit_of_mem_numeral, h.takeWhile, h.dropWhile,
      List.append_nil]

theorem EndsNumber.fraction (h : EndsNumber rest) : Json.fraction rest = ([], rest) := by
  unfold Json.fraction
  split
  · next behind => exact absurd rfl (h _ rfl).2.1
  · rfl

theorem EndsNumber.exponent (h : EndsNumber rest) : Json.exponent rest = ([], rest) := by
  cases rest with
  | nil => rfl
  | cons mark rest =>
      obtain ⟨_, _, hlower, hupper⟩ := h mark rfl
      have hmark : (mark == .char 'e' || mark == .char 'E') = false := by simp [hlower, hupper]
      simp only [Json.exponent, hmark, Bool.false_and, Bool.false_eq_true, if_false]

theorem readNumber_numeral (negative : Bool) (n : Nat) (h : EndsNumber rest)
    (hdigits : ∀ d ∈ limits.digits, (Number.numeral n).length ≤ d) :
    readNumber limits negative (Text.ofChars (Number.numeral n) ++ rest)
      = .ok (.int (if negative then -n else n), rest) := by
  have hchars : (Text.ofChars (Number.numeral n)).filterMap CodePoint.char? = Number.numeral n := by
    rw [Text.ofChars, List.filterMap_map]
    exact List.filterMap_some
  have hsome : (Text.ofChars (Number.numeral n)).isEmpty = false := by
    simpa [Text.ofChars] using Number.numeral_ne_nil n
  have hlength : limits.digits.any (· < (Text.ofChars (Number.numeral n)).length) = false := by
    rw [Text.ofChars, List.length_map, Option.any_eq_false]
    exact fun d hd => by simpa using hdigits d hd
  simp only [readNumber, wholePart_numeral n h, h.fraction, h.exponent, List.append_nil, hchars,
    hsome, List.isEmpty_nil, Bool.and_self, hlength, Number.natOfDigits_numeral, if_true, if_false,
    Bool.false_eq_true]

/-! ## Words and whole numbers -/

/-- No digit is among the first two code points of a word. -/
theorem words_digits : ∀ w ∈ words, 2 ≤ w.1.length ∧ ∀ c ∈ w.1, isDigit c = false := by
  decide

/-- A text that begins with a digit, or with one behind a minus, begins with no word. -/
theorem find?_words_eq_none {sign : Text} {c : CodePoint} (hsign : sign.length ≤ 1)
    (h : isDigit c = true) (rest : Text) :
    words.find? (fun w => w.1.isPrefixOf (sign ++ c :: rest)) = none := by
  refine List.find?_eq_none.mpr fun w hw hprefix => ?_
  obtain ⟨hlength, hletters⟩ := words_digits w hw
  have hshort : sign.length < w.1.length := by omega
  obtain ⟨behind, hbehind⟩ := List.isPrefixOf_iff_prefix.mp hprefix
  have hat : (w.1 ++ behind)[sign.length]? = some c := by
    rw [hbehind, List.getElem?_append_right (Nat.le_refl _), Nat.sub_self]
    rfl
  rw [List.getElem?_append_left hshort] at hat
  have hfalse := hletters c (List.mem_of_getElem? hat)
  rw [h] at hfalse
  cases hfalse

theorem readScalar_of_digit {c : CodePoint} (h : isDigit c = true) :
    readScalar limits (c :: rest) = readNumber limits false (c :: rest) := by
  have hwords : words.find? (fun w => w.1.isPrefixOf (c :: rest)) = none :=
    @find?_words_eq_none [] c (by decide) h rest
  unfold readScalar
  rw [hwords]
  dsimp only
  split
  · next behind hminus =>
      cases hminus
      cases h
  · rfl

theorem readScalar_of_minus {c : CodePoint} (h : isDigit c = true) :
    readScalar limits (.char '-' :: c :: rest) = readNumber limits true (c :: rest) := by
  have hwords : words.find? (fun w => w.1.isPrefixOf (.char '-' :: c :: rest)) = none :=
    @find?_words_eq_none [.char '-'] c (by decide) h rest
  unfold readScalar
  rw [hwords]
  rfl

theorem ofString_toString (value : Int) : Text.ofString (toString value)
    = (if value < 0 then [.char '-'] else []) ++ Text.ofChars (Number.numeral value.natAbs) := by
  rw [Text.ofString, Number.toList_toString, Text.ofChars, List.map_append]
  split <;> rfl

/-- A whole number is read back up to where it ends. -/
theorem readScalar_int {value : Int} (h : EndsNumber rest)
    (hdigits : ∀ d ∈ limits.digits, (Number.numeral value.natAbs).length ≤ d) :
    readScalar limits (Text.ofString (toString value) ++ rest) = .ok (.int value, rest) := by
  have hread := fun negative => readNumber_numeral negative value.natAbs h hdigits
  obtain ⟨d, digits, hnumeral⟩ := List.exists_cons_of_ne_nil (Number.numeral_ne_nil value.natAbs)
  have hd : isDigit (.char d) = true :=
    Number.isDigit_of_mem_numeral d (hnumeral ▸ List.mem_cons_self)
  rw [ofString_toString]
  rw [hnumeral] at hread ⊢
  by_cases hnegative : value < 0
  · have hvalue : -(value.natAbs : Int) = value := by omega
    rw [if_pos hnegative]
    exact (readScalar_of_minus hd).trans ((hread true).trans (by rw [if_pos rfl, hvalue]))
  · have hvalue : (value.natAbs : Int) = value := by omega
    rw [if_neg hnegative]
    exact (readScalar_of_digit hd).trans
      ((hread false).trans (by rw [if_neg Bool.false_ne_true, hvalue]))

end

/-! ## Values -/

/-- The value can be read back: it holds no number but whole ones, which have not too many digits,
no two members of an object have one key, and lists and objects are not nested too deeply. -/
inductive ReadableWithin (limits : Limits) : Nat → Json → Prop
  | null {depth : Nat} : ReadableWithin limits depth .null
  | bool {depth : Nat} (value : Bool) : ReadableWithin limits depth (.bool value)
  | int {depth : Nat} {value : Int} :
      (∀ d ∈ limits.digits, (Number.numeral value.natAbs).length ≤ d) →
      ReadableWithin limits depth (.int value)
  | str {depth : Nat} (value : Text) : ReadableWithin limits depth (.str value)
  | arr {depth : Nat} {items : List Json} : (∀ v ∈ items, ReadableWithin limits depth v) →
      ReadableWithin limits (depth + 1) (.arr items)
  | obj {depth : Nat} {members : List (Text × Json)} : (members.map Prod.fst).Nodup →
      (∀ m ∈ members, ReadableWithin limits depth m.2) →
      ReadableWithin limits (depth + 1) (.obj members)

/-- The code point is neither blank nor the end of a list. -/
def OpensValue (c : CodePoint) : Prop :=
  c ∉ ([.char ' ', .char '\t', .char '\n', .char '\r', .char ']'] : Text)

instance : DecidablePred OpensValue :=
  fun c => inferInstanceAs
    (Decidable (c ∉ ([.char ' ', .char '\t', .char '\n', .char '\r', .char ']'] : Text)))

/-- The text of the value is read back as the value, up to its end. -/
def ReadsBack (limits : Limits) (depth : Nat) (v : Json) : Prop :=
  ∀ {fuel : Nat} {rest : Text}, v.render.length < fuel → EndsNumber rest →
    readValue limits fuel depth (v.render ++ rest) = .ok (v, rest)

section

variable {limits : Limits} {depth : Nat} {v : Json}

theorem opensValue_of_isDigit {c : CodePoint} (h : isDigit c = true) : OpensValue c := by
  intro hmem
  simp only [List.mem_cons, List.not_mem_nil, or_false] at hmem
  rcases hmem with rfl | rfl | rfl | rfl | rfl <;> cases h

/-- The text of a whole number begins with its sign or with a digit. -/
theorem exists_toString_eq_cons (value : Int) : ∃ c t,
    Text.ofString (toString value) = c :: t ∧ (c = .char '-' ∨ isDigit c = true) := by
  rw [ofString_toString]
  split
  · exact ⟨_, _, rfl, .inl rfl⟩
  · obtain ⟨d, digits, hnumeral⟩ :=
      List.exists_cons_of_ne_nil (Number.numeral_ne_nil value.natAbs)
    rw [hnumeral]
    exact ⟨_, _, rfl, .inr (Number.isDigit_of_mem_numeral d (hnumeral ▸ List.mem_cons_self))⟩

theorem exists_render_eq_cons (h : ReadableWithin limits depth v) :
    ∃ c t, v.render = c :: t ∧ OpensValue c := by
  cases h with
  | null => exact ⟨.char 'n', _, rfl, by decide⟩
  | bool value =>
      cases value with
      | false => exact ⟨.char 'f', _, rfl, by decide⟩
      | true => exact ⟨.char 't', _, rfl, by decide⟩
  | @int _ value hdigits =>
      obtain ⟨c, t, htext, rfl | hdigit⟩ := exists_toString_eq_cons value
      · exact ⟨_, t, htext, by decide⟩
      · exact ⟨c, t, htext, opensValue_of_isDigit hdigit⟩
  | str value => exact ⟨.char '"', _, rfl, by decide⟩
  | arr hitems => exact ⟨.char '[', _, rfl, by decide⟩
  | obj hkeys hvalues => exact ⟨.char '\x7b', _, rfl, by decide⟩

theorem skipBlanks_of_opensValue {c : CodePoint} (h : OpensValue c) (t : Text) :
    skipBlanks (c :: t) = c :: t := by
  refine List.dropWhile_cons_of_neg fun hblank => h ?_
  simp only [Bool.or_eq_true, beq_iff_eq] at hblank
  rcases hblank with ((rfl | rfl) | rfl) | rfl
  all_goals decide

theorem render_arr (items : List Json) :
    (arr items).render = .char '[' :: (listed (items.map render) ++ [.char ']']) := by
  have hitems : renderItems items = items.map render := by
    induction items with
    | nil => rfl
    | cons v items ih => rw [renderItems, ih, List.map_cons]
  rw [render, hitems]
  rfl

/-- The text of a member of an object. -/
def memberText (m : Text × Json) : Text :=
  stringText m.1 ++ Text.ofString ": " ++ m.2.render

theorem render_obj (members : List (Text × Json)) :
    (obj members).render = .char '\x7b' :: (listed (members.map memberText) ++ [.char '\x7d']) := by
  have hmembers : renderMembers members = members.map memberText := by
    induction members with
    | nil => rfl
    | cons m members ih => rw [renderMembers, ih, List.map_cons, memberText]
  rw [render, hmembers]
  rfl

/-! ### Lists -/

theorem endsNumber_cons {c : CodePoint} (t : Text)
    (h : c ∈ ([.char ',', .char ']', .char '\x7d', .char '\n'] : Text)) : EndsNumber (c :: t) := by
  rintro _ ⟨⟩
  revert c
  decide

theorem listed_singleton (text : Text) : listed [text] = text :=
  List.intercalate_singleton

theorem listed_cons_cons (text text' : Text) (texts : List Text) :
    listed (text :: text' :: texts)
      = text ++ .char ',' :: .char ' ' :: listed (text' :: texts) := by
  rw [listed, List.intercalate_cons_cons, List.append_assoc]
  rfl

/-- Listed texts begin as the first of them does. -/
theorem exists_listed_eq_cons {text : Text} {c : CodePoint} {t : Text} (h : text = c :: t)
    (texts : List Text) : ∃ t', listed (text :: texts) = c :: t' := by
  cases texts with
  | nil => exact ⟨t, by rw [listed_singleton, h]⟩
  | cons text' texts => exact ⟨_, by rw [listed_cons_cons, h, List.cons_append]⟩

theorem skipBlanks_listed {text : Text} {c : CodePoint} {t : Text} (h : text = c :: t)
    (hopens : OpensValue c) (texts : List Text) (rest : Text) :
    skipBlanks (listed (text :: texts) ++ rest) = listed (text :: texts) ++ rest := by
  obtain ⟨t', hlisted⟩ := exists_listed_eq_cons h texts
  rw [hlisted]
  exact skipBlanks_of_opensValue hopens _

theorem readItems_render : ∀ {items : List Json}, items ≠ [] →
    (∀ v ∈ items, ReadableWithin limits depth v ∧ ReadsBack limits depth v) →
    ∀ {fuel : Nat} (rest : Text), (listed (items.map render)).length + 1 < fuel →
      readItems limits fuel depth (listed (items.map render) ++ .char ']' :: rest)
        = .ok (items, rest)
  | [], hne, _, _, _, _ => absurd rfl hne
  | [v], _, h, fuel + 1, rest, hfuel => by
      obtain ⟨_, hread⟩ := h v List.mem_cons_self
      rw [List.map_cons, List.map_nil, listed_singleton] at hfuel ⊢
      rw [readItems, hread (by omega) (endsNumber_cons _ (by decide))]
      rfl
  | v :: w :: items, _, h, fuel + 1, rest, hfuel => by
      obtain ⟨_, hread⟩ := h v List.mem_cons_self
      have hbehind := fun x hx => h x (List.mem_cons_of_mem v hx)
      have hmore := @readItems_render (w :: items) (List.cons_ne_nil _ _) hbehind fuel rest
      obtain ⟨c, t, hw, hopens⟩ := exists_render_eq_cons (hbehind w List.mem_cons_self).1
      rw [List.map_cons, List.map_cons, listed_cons_cons] at hfuel ⊢
      rw [List.map_cons] at hmore
      simp only [List.length_append, List.length_cons] at hfuel
      rw [List.append_assoc, List.cons_append, List.cons_append, readItems,
        hread (by omega) (endsNumber_cons _ (by decide))]
      show (readItems limits fuel depth (skipBlanks (listed _ ++ _)) >>= _) = _
      rw [skipBlanks_listed hw hopens, hmore (by omega)]
      rfl

/-- A list whose items are read back is read back. -/
theorem readsBack_arr {items : List Json}
    (h : ∀ v ∈ items, ReadableWithin limits depth v ∧ ReadsBack limits depth v) :
    ReadsBack limits (depth + 1) (.arr items) := by
  intro fuel rest hfuel _
  obtain ⟨fuel, rfl⟩ := Nat.exists_eq_succ_of_ne_zero (Nat.ne_zero_of_lt hfuel)
  rw [render_arr, List.length_cons, List.length_append, List.length_singleton] at hfuel
  rw [render_arr, List.cons_append, List.append_assoc, List.singleton_append]
  cases items with
  | nil => rfl
  | cons v items =>
      obtain ⟨c, t, hv, hopens⟩ := exists_render_eq_cons (h v List.mem_cons_self).1
      obtain ⟨t', hlisted⟩ := exists_listed_eq_cons hv (items.map render)
      have hskip := skipBlanks_listed hv hopens (items.map render) (.char ']' :: rest)
      have hread := readItems_render (List.cons_ne_nil v items) h rest (show _ < fuel by omega)
      rw [List.map_cons] at hread ⊢
      rw [readValue, hskip]
      split
      · next hclosed =>
          rw [hlisted] at hclosed
          cases hclosed
          exact absurd hopens (by decide)
      · rw [hread]
        rfl

/-! ### Objects -/

theorem setMember_of_not_mem {key : Text} {members : List (Text × Json)}
    (h : key ∉ members.map Prod.fst) : setMember key v members = members ++ [(key, v)] := by
  induction members with
  | nil => rfl
  | cons m members ih =>
      rw [List.map_cons, List.mem_cons, not_or] at h
      rw [setMember, if_neg (by simpa using Ne.symm h.1), ih h.2, List.cons_append]

/-- A member is read back, and what stands behind it tells how to go on. -/
theorem readMembers_memberText {m : Text × Json} (hvalue : ReadableWithin limits depth m.2)
    (hread : ReadsBack limits depth m.2) {before : List (Text × Json)} {fuel : Nat} {rest : Text}
    (hfuel : m.2.render.length < fuel) (hrest : EndsNumber rest) :
    readMembers limits (fuel + 1) depth before (memberText m ++ rest) =
      match skipBlanks rest with
      | .char '\x7d' :: rest => .ok (setMember m.1 m.2 before, rest)
      | .char ',' :: rest =>
        readMembers limits fuel depth (setMember m.1 m.2 before) (skipBlanks rest)
      | _ => .error .malformed := by
  obtain ⟨c, t, hm, hopens⟩ := exists_render_eq_cons hvalue
  have htext : memberText m ++ rest = .char '"' :: (m.1.flatMap stringPoint ++ .char '"' ::
      .char ':' :: .char ' ' :: (m.2.render ++ rest)) := by
    simp [memberText, stringText]
    rfl
  have hskip : skipBlanks (.char ' ' :: (m.2.render ++ rest)) = m.2.render ++ rest := by
    rw [hm]
    exact skipBlanks_of_opensValue hopens _
  rw [htext, readMembers, readString_flatMap]
  show (readValue limits fuel depth (skipBlanks _) >>= _) = _
  rw [hskip, hread hfuel hrest]
  rfl

theorem length_render_lt (m : Text × Json) : m.2.render.length < (memberText m).length := by
  simp only [memberText, stringText, List.length_append, List.length_cons]
  omega

theorem setMember_behind {m : Text × Json} {before after : List (Text × Json)}
    (h : ((before ++ m :: after).map Prod.fst).Nodup) :
    setMember m.1 m.2 before = before ++ [m] := by
  refine setMember_of_not_mem fun hmem => ?_
  rw [List.map_append, List.map_cons] at h
  exact (List.nodup_append.mp h).2.2 m.1 hmem m.1 List.mem_cons_self rfl

theorem readMembers_render : ∀ {members : List (Text × Json)} {before : List (Text × Json)},
    members ≠ [] → (∀ m ∈ members, ReadableWithin limits depth m.2 ∧ ReadsBack limits depth m.2) →
    ((before ++ members).map Prod.fst).Nodup →
    ∀ {fuel : Nat} (rest : Text), (listed (members.map memberText)).length + 1 < fuel →
      readMembers limits fuel depth before (listed (members.map memberText) ++ .char '\x7d' :: rest)
        = .ok (before ++ members, rest)
  | [], _, hne, _, _, _, _, _ => absurd rfl hne
  | [m], before, _, h, hkeys, fuel + 1, rest, hfuel => by
      obtain ⟨hvalue, hread⟩ := h m List.mem_cons_self
      have hlength := length_render_lt m
      rw [List.map_cons, List.map_nil, listed_singleton] at hfuel ⊢
      rw [readMembers_memberText hvalue hread (by omega) (endsNumber_cons _ (by decide)),
        setMember_behind hkeys]
      rfl
  | m :: m' :: members, before, _, h, hkeys, fuel + 1, rest, hfuel => by
      obtain ⟨hvalue, hread⟩ := h m List.mem_cons_self
      have hlength := length_render_lt m
      have hsame : before ++ m :: m' :: members = (before ++ [m]) ++ m' :: members := by simp
      have hmore := @readMembers_render (m' :: members) (before ++ [m]) (List.cons_ne_nil _ _)
        (fun x hx => h x (List.mem_cons_of_mem m hx)) (hsame ▸ hkeys) fuel rest
      rw [List.map_cons, List.map_cons, listed_cons_cons] at hfuel ⊢
      rw [List.map_cons] at hmore
      simp only [List.length_append, List.length_cons] at hfuel
      rw [List.append_assoc, List.cons_append, List.cons_append,
        readMembers_memberText hvalue hread (by omega) (endsNumber_cons _ (by decide)),
        setMember_behind hkeys]
      obtain ⟨t, ht⟩ : ∃ t, memberText m' = .char '"' :: t := ⟨_, rfl⟩
      show readMembers limits fuel depth _ (skipBlanks (listed _ ++ _)) = _
      rw [skipBlanks_listed ht (by decide), hmore (by omega), hsame]

/-- An object of different keys whose values are read back is read back. -/
theorem readsBack_obj {members : List (Text × Json)} (hkeys : (members.map Prod.fst).Nodup)
    (h : ∀ m ∈ members, ReadableWithin limits depth m.2 ∧ ReadsBack limits depth m.2) :
    ReadsBack limits (depth + 1) (.obj members) := by
  intro fuel rest hfuel _
  obtain ⟨fuel, rfl⟩ := Nat.exists_eq_succ_of_ne_zero (Nat.ne_zero_of_lt hfuel)
  rw [render_obj, List.length_cons, List.length_append, List.length_singleton] at hfuel
  rw [render_obj, List.cons_append, List.append_assoc, List.singleton_append]
  cases members with
  | nil => rfl
  | cons m members =>
      obtain ⟨t, ht⟩ : ∃ t, memberText m = .char '"' :: t := ⟨_, rfl⟩
      obtain ⟨t', hlisted⟩ := exists_listed_eq_cons ht (members.map memberText)
      have hskip := skipBlanks_listed ht (by decide) (members.map memberText) (.char '\x7d' :: rest)
      have hread := @readMembers_render _ _ _ [] (List.cons_ne_nil m members) h hkeys fuel rest
        (by omega)
      rw [List.map_cons] at hread ⊢
      rw [readValue, hskip]
      split
      · next hclosed =>
          rw [hlisted] at hclosed
          cases hclosed
      · rw [hread]
        rfl

/-! ### All values -/

theorem readValue_scalar {fuel : Nat} {c : CodePoint} {rest : Text}
    (h : c ∉ ([.char '"', .char '[', .char '\x7b'] : Text)) :
    readValue limits (fuel + 1) depth (c :: rest) = readScalar limits (c :: rest) := by
  simp only [List.mem_cons, List.not_mem_nil, or_false, not_or] at h
  obtain ⟨hstring, hlist, hobject⟩ := h
  unfold readValue
  split
  all_goals simp_all

theorem readsBack_int {value : Int}
    (hdigits : ∀ d ∈ limits.digits, (Number.numeral value.natAbs).length ≤ d) :
    ReadsBack limits depth (.int value) := by
  intro fuel rest hfuel hrest
  obtain ⟨fuel, rfl⟩ := Nat.exists_eq_succ_of_ne_zero (Nat.ne_zero_of_lt hfuel)
  obtain ⟨c, t, htext, hc⟩ := exists_toString_eq_cons value
  have hplain : c ∉ ([.char '"', .char '[', .char '\x7b'] : Text) := by
    intro hmem
    rcases hc with rfl | hdigit
    · revert hmem
      decide
    · simp only [List.mem_cons, List.not_mem_nil, or_false] at hmem
      rcases hmem with rfl | rfl | rfl <;> cases hdigit
  rw [render, htext, List.cons_append, readValue_scalar hplain, ← List.cons_append, ← htext]
  exact readScalar_int hrest hdigits

/-- Every value that is readable within the limits is read back. -/
theorem ReadableWithin.readsBack (h : ReadableWithin limits depth v) :
    ReadsBack limits depth v := by
  induction h with
  | null =>
      intro fuel rest hfuel _
      obtain ⟨fuel, rfl⟩ := Nat.exists_eq_succ_of_ne_zero (Nat.ne_zero_of_lt hfuel)
      rfl
  | bool value =>
      intro fuel rest hfuel _
      obtain ⟨fuel, rfl⟩ := Nat.exists_eq_succ_of_ne_zero (Nat.ne_zero_of_lt hfuel)
      cases value <;> rfl
  | int hdigits => exact readsBack_int hdigits
  | str value =>
      intro fuel rest hfuel _
      obtain ⟨fuel, rfl⟩ := Nat.exists_eq_succ_of_ne_zero (Nat.ne_zero_of_lt hfuel)
      rw [render, stringText, List.cons_append, List.cons_append, List.append_assoc,
        List.singleton_append, readValue, readString_flatMap]
      rfl
  | arr hitems ih => exact readsBack_arr fun v hv => ⟨hitems v hv, ih v hv⟩
  | obj hkeys hvalues ih => exact readsBack_obj hkeys fun m hm => ⟨hvalues m hm, ih m hm⟩

/-- What is written of a value, on a line of its own, is read as the value. -/
theorem parseWithin_render (h : ReadableWithin limits limits.depth v) :
    parseWithin limits (v.render ++ Text.ofString "\n") = .ok v := by
  obtain ⟨c, t, htext, hopens⟩ := exists_render_eq_cons h
  have hread : readValue limits ((v.render ++ Text.ofString "\n").length + 1) limits.depth
      (v.render ++ Text.ofString "\n") = .ok (v, Text.ofString "\n") := by
    refine h.readsBack ?_ (endsNumber_cons [] (by decide))
    rw [List.length_append]
    omega
  have hskip : skipBlanks (v.render ++ Text.ofString "\n") = v.render ++ Text.ofString "\n" := by
    rw [htext]
    exact skipBlanks_of_opensValue hopens _
  rw [parseWithin, hskip, hread]
  rfl

/-! ## What stands in the text of a value -/

variable {c : CodePoint}

theorem mem_listed {text : Text} (hc : c ∈ text) : ∀ {texts : List Text}, text ∈ texts →
    c ∈ listed texts
  | [_], h => by
      rw [listed_singleton, ← List.mem_singleton.mp h]
      exact hc
  | first :: second :: texts, h => by
      rw [listed_cons_cons, List.mem_append]
      rcases List.mem_cons.mp h with rfl | h
      · exact .inl hc
      · exact .inr (List.mem_cons_of_mem _ (List.mem_cons_of_mem _ (mem_listed hc h)))

theorem mem_render_arr {items : List Json} (hv : v ∈ items) (hc : c ∈ v.render) :
    c ∈ (arr items).render := by
  rw [render_arr]
  refine List.mem_cons_of_mem _ (List.mem_append_left _ ?_)
  exact mem_listed hc (List.mem_map_of_mem hv)

theorem mem_render_obj {m : Text × Json} {members : List (Text × Json)} (hm : m ∈ members)
    (hc : c ∈ m.2.render) : c ∈ (obj members).render := by
  rw [render_obj]
  refine List.mem_cons_of_mem _ (List.mem_append_left _ ?_)
  exact mem_listed (List.mem_append_right _ hc) (List.mem_map_of_mem hm)

/-- A surrogate of a string stands in the text as it is. -/
theorem surrogate_mem_render_str {x : Surrogate} {t : Text} (h : .surrogate x ∈ t) :
    .surrogate x ∈ (str t).render := by
  rw [render, stringText]
  refine List.mem_append_left _ (List.mem_cons_of_mem _ ?_)
  exact List.mem_flatMap.mpr ⟨_, h, List.mem_singleton_self _⟩

end

end SyntaxChunks.Json
