import ShaderText.Proofs.Values

/-! Texts that read alike. A respelling writes every character as one of the same lower case, and may
put a carriage return in front of a line feed. Main statement: every scanner passes over the respelled
text as it passes over the text, so what it leaves is the respelled rest.
-/
namespace ShaderText

/-- Whether two characters differ at most in the case of ASCII letters. -/
def Alike (c d : Char) : Prop := c.toLower = d.toLower

theorem isAlpha_iff {c : Char} :
    c.isAlpha ↔ (65 ≤ c.toNat ∧ c.toNat ≤ 90) ∨ (97 ≤ c.toNat ∧ c.toNat ≤ 122) := by
  have ranges : c.isAlpha = (decide ('A'.val ≤ c.val ∧ c.val ≤ 'Z'.val) ||
    (decide ('a'.val ≤ c.val) && decide (c.val ≤ 'z'.val))) := rfl
  simp only [ranges, Bool.or_eq_true, Bool.and_eq_true, decide_eq_true_eq, UInt32.le_iff_toNat_le]
  rfl

theorem toNat_toLower (c : Char) :
    c.toLower.toNat = if 65 ≤ c.toNat ∧ c.toNat ≤ 90 then c.toNat + 32 else c.toNat := by
  have upper : (c.val ≥ 'A'.val ∧ c.val ≤ 'Z'.val) ↔ (65 ≤ c.toNat ∧ c.toNat ≤ 90) := by
    simp only [UInt32.le_iff_toNat_le, ge_iff_le]
    rfl
  unfold Char.toLower
  by_cases h : c.val ≥ 'A'.val ∧ c.val ≤ 'Z'.val
  · have range := upper.mp h
    rw [dif_pos h, if_pos range]
    have sum : (c.val + ('a'.val - 'A'.val)).toNat = (c.toNat + 32) % 2 ^ 32 := UInt32.toNat_add ..
    change (c.val + ('a'.val - 'A'.val)).toNat = _
    rw [sum, Nat.mod_eq_of_lt (by omega)]
  · rw [dif_neg h, if_neg (mt upper.mpr h)]

theorem Alike.eq_or_isAlpha {c d : Char} (h : Alike c d) : c = d ∨ (c.isAlpha ∧ d.isAlpha) := by
  have same := congrArg Char.toNat h
  rw [toNat_toLower, toNat_toLower] at same
  rw [isAlpha_iff, isAlpha_iff]
  by_cases equal : c.toNat = d.toNat
  · exact .inl (Char.toNat_inj.mp equal)
  · refine .inr ?_
    split at same <;> split at same <;> omega

theorem Alike.eq_of_not_isAlpha {c d : Char} (h : Alike c d) (sign : c.isAlpha = false) : d = c := by
  rcases h.eq_or_isAlpha with equal | ⟨letter, -⟩
  · exact equal.symm
  · simp [sign] at letter

theorem Alike.eq_iff {c d s : Char} (h : Alike c d) (sign : s.isAlpha = false) : d = s ↔ c = s := by
  rcases h.eq_or_isAlpha with rfl | ⟨letter, letter'⟩
  · rfl
  · constructor
    · rintro rfl
      simp [sign] at letter'
    · rintro rfl
      simp [sign] at letter

theorem utf8Size_of_toNat_le {c : Char} (h : c.toNat ≤ 127) : c.utf8Size = 1 := by
  have small : c.val ≤ UInt32.ofNatLT 127 (by decide) := UInt32.le_iff_toNat_le.mpr h
  rw [Char.utf8Size, if_pos small]

theorem Alike.utf8Size_eq {c d : Char} (h : Alike c d) : d.utf8Size = c.utf8Size := by
  rcases h.eq_or_isAlpha with rfl | ⟨letter, letter'⟩
  · rfl
  · rw [isAlpha_iff] at letter letter'
    rw [utf8Size_of_toNat_le (by omega), utf8Size_of_toNat_le (by omega)]

/-- Whether a class of characters tells neither the cases of a letter apart nor the characters that end
a line. -/
structure IsCoarse (p : Char → Bool) : Prop where
  alike : ∀ {c d}, Alike c d → p d = p c
  breaks : p '\r' = p '\n'

theorem isCoarse_of_letters {p : Char → Bool} (b : Bool) (letters : ∀ c : Char, c.isAlpha → p c = b)
    (breaks : p '\r' = p '\n') : IsCoarse p where
  alike h := by
    rcases h.eq_or_isAlpha with rfl | ⟨letter, letter'⟩
    · rfl
    · rw [letters _ letter, letters _ letter']
  breaks := breaks

theorem ne_of_isAlpha {c s : Char} (h : c.isAlpha) (sign : s.isAlpha = false) : c ≠ s := by
  rintro rfl
  simp [sign] at h

theorem isSpace_of_isAlpha {c : Char} (h : c.isAlpha) : isSpace c = false := by
  simp [isSpace, ne_of_isAlpha h]

theorem isCoarse_isSpace : IsCoarse isSpace :=
  isCoarse_of_letters false (fun _ => isSpace_of_isAlpha) (by decide)

theorem isCoarse_not_isSpace : IsCoarse fun c => !isSpace c where
  alike h := by simp only [isCoarse_isSpace.alike h]
  breaks := by decide

theorem isCoarse_isNameChar : IsCoarse isNameChar :=
  isCoarse_of_letters true (fun c letter => by
    simp [isNameChar, isSpace_of_isAlpha letter, ne_of_isAlpha letter]) (by decide)

theorem isCoarse_isTagChar : IsCoarse isTagChar :=
  isCoarse_of_letters true (fun c letter => by
    simp [isTagChar, isSpace_of_isAlpha letter, ne_of_isAlpha letter]) (by decide)

theorem isCoarse_isArgumentChar : IsCoarse isArgumentChar :=
  isCoarse_of_letters true (fun c letter => by
    simp [isArgumentChar, isSpace_of_isAlpha letter, ne_of_isAlpha letter]) (by decide)

theorem isCoarse_isBlank : IsCoarse isBlank :=
  isCoarse_of_letters false (fun c letter => by
    rw [isAlpha_iff] at letter
    simp only [isBlank, Bool.or_eq_false_iff, Bool.and_eq_false_iff, decide_eq_false_iff_not,
      beq_eq_false_iff_ne]
    omega) (by decide)

theorem Mode.next_of_alike {c d : Char} (h : Alike c d) (mode : Mode) : mode.next d = mode.next c := by
  cases mode <;> simp [next, opened, h.eq_iff]

theorem Mode.next_return_break (mode : Mode) : (mode.next '\r').next '\n' = mode.next '\n' := by
  cases mode <;> rfl

/-- A way to write every character anew. -/
structure Respelling where
  image : Char → List Char
  image_alike : ∀ c, (c = '\n' ∧ image c = ['\r', '\n']) ∨ ∃ d, image c = [d] ∧ Alike c d

namespace Respelling

variable (ρ : Respelling)

def text (cs : List Char) : List Char := cs.flatMap ρ.image

def string (s : String) : String := String.ofList (ρ.text s.toList)

def pair (p : String × String) : String × String := (ρ.string p.1, ρ.string p.2)

/-- A cause that names what it found names what is there instead. -/
def cause : Cause → Cause
  | .missingShader found => .missingShader (ρ.string found)
  | c => c

@[simp] theorem text_nil : ρ.text [] = [] := rfl

@[simp] theorem text_cons (c : Char) (cs : List Char) : ρ.text (c :: cs) = ρ.image c ++ ρ.text cs :=
  List.flatMap_cons

@[simp] theorem text_append (first second : List Char) :
    ρ.text (first ++ second) = ρ.text first ++ ρ.text second :=
  List.flatMap_append

@[simp] theorem toList_string (s : String) : (ρ.string s).toList = ρ.text s.toList := by
  simp [string]

@[simp] theorem string_ofList (cs : List Char) : ρ.string (String.ofList cs) = String.ofList (ρ.text cs) := by
  simp [string]

theorem image_of_sign {c : Char} (sign : c.isAlpha = false) (noBreak : c ≠ '\n') : ρ.image c = [c] := by
  rcases ρ.image_alike c with ⟨rfl, -⟩ | ⟨d, image, alike⟩
  · exact absurd rfl noBreak
  · rw [image, alike.eq_of_not_isAlpha sign]

theorem length_image_pos (c : Char) : 0 < (ρ.image c).length := by
  rcases ρ.image_alike c with ⟨-, image⟩ | ⟨d, image, -⟩ <;> simp [image]

theorem length_le_text (cs : List Char) : cs.length ≤ (ρ.text cs).length := by
  induction cs with
  | nil => simp
  | cons c cs ih =>
    have := ρ.length_image_pos c
    simp only [text_cons, List.length_append, List.length_cons]
    omega

theorem text_eq_nil_iff {cs : List Char} : ρ.text cs = [] ↔ cs = [] := by
  constructor
  · intro h
    have := ρ.length_le_text cs
    rw [h] at this
    exact List.length_eq_zero_iff.mp (by simpa using this)
  · rintro rfl
    rfl

theorem text_eq_cons_iff {cs rest : List Char} {s : Char} (sign : s.isAlpha = false)
    (noBreak : s ≠ '\n' ∧ s ≠ '\r') :
    ρ.text cs = s :: rest ↔ ∃ cs', cs = s :: cs' ∧ rest = ρ.text cs' := by
  constructor
  · intro h
    cases cs with
    | nil => simp at h
    | cons c cs =>
      rw [text_cons] at h
      rcases ρ.image_alike c with ⟨rfl, image⟩ | ⟨d, image, alike⟩
      · rw [image] at h
        exact absurd (List.cons.inj h).1.symm noBreak.2
      · rw [image] at h
        obtain ⟨rfl, rest⟩ := List.cons.inj h
        exact ⟨cs, by rw [(alike.eq_iff sign).mp rfl], rest.symm⟩
  · rintro ⟨cs', rfl, rfl⟩
    rw [text_cons, ρ.image_of_sign sign noBreak.1]
    rfl

theorem head?_text {cs : List Char} {s : Char} (sign : s.isAlpha = false)
    (noBreak : s ≠ '\n' ∧ s ≠ '\r') : (ρ.text cs).head? = some s ↔ cs.head? = some s := by
  rw [List.head?_eq_some_iff, List.head?_eq_some_iff]
  constructor
  · rintro ⟨rest, h⟩
    obtain ⟨cs', rfl, -⟩ := (ρ.text_eq_cons_iff sign noBreak).mp h
    exact ⟨cs', rfl⟩
  · rintro ⟨cs', rfl⟩
    exact ⟨_, (ρ.text_eq_cons_iff sign noBreak).mpr ⟨cs', rfl, rfl⟩⟩

theorem getLast?_text {cs : List Char} {s : Char} (sign : s.isAlpha = false) :
    (ρ.text cs).getLast? = some s ↔ cs.getLast? = some s := by
  rcases List.eq_nil_or_concat cs with rfl | ⟨front, c, rfl⟩
  · rfl
  · rw [List.concat_eq_append, text_append, text_cons, text_nil, List.append_nil]
    rcases ρ.image_alike c with ⟨rfl, image⟩ | ⟨d, image, alike⟩
    · simp [image]
    · simp [image, alike.eq_iff sign]

theorem suffix_text {tail cs : List Char} (h : tail <:+ cs) : ρ.text tail <:+ ρ.text cs := by
  obtain ⟨front, rfl⟩ := h
  exact ⟨ρ.text front, by rw [text_append]⟩

theorem take_text {tail cs : List Char} (h : tail <:+ cs) :
    (ρ.text cs).take ((ρ.text cs).length - (ρ.text tail).length) =
      ρ.text (cs.take (cs.length - tail.length)) := by
  obtain ⟨front, rfl⟩ := h
  simp

theorem length_text_lt_iff {first second cs : List Char} (h : first <:+ cs) (h' : second <:+ cs) :
    (ρ.text first).length < (ρ.text second).length ↔ first.length < second.length := by
  constructor
  · intro shorter
    refine Nat.lt_of_not_le fun longer => ?_
    have within := List.suffix_of_suffix_length_le h' h longer
    have := (ρ.suffix_text within).length_le
    omega
  · intro shorter
    obtain ⟨front, rfl⟩ := List.suffix_of_suffix_length_le h h' (by omega)
    rw [text_append, List.length_append]
    have := ρ.length_le_text front
    simp only [List.length_append] at shorter
    omega

theorem dropWhile_text {p : Char → Bool} (coarse : IsCoarse p) (cs : List Char) :
    (ρ.text cs).dropWhile p = ρ.text (cs.dropWhile p) := by
  induction cs with
  | nil => rfl
  | cons c cs ih =>
    rcases ρ.image_alike c with ⟨rfl, image⟩ | ⟨d, image, alike⟩
    · by_cases passes : p '\n'
      · simp [image, coarse.breaks, passes, ih]
      · simp [image, coarse.breaks, passes]
    · by_cases passes : p c
      · simp [image, coarse.alike alike, passes, ih]
      · simp [image, coarse.alike alike, passes]

theorem takeWhile_text {p : Char → Bool} (coarse : IsCoarse p) (cs : List Char) :
    (ρ.text cs).takeWhile p = ρ.text (cs.takeWhile p) := by
  induction cs with
  | nil => rfl
  | cons c cs ih =>
    rcases ρ.image_alike c with ⟨rfl, image⟩ | ⟨d, image, alike⟩
    · by_cases passes : p '\n'
      · simp [image, coarse.breaks, passes, ih]
      · simp [image, coarse.breaks, passes]
    · by_cases passes : p c
      · simp [image, coarse.alike alike, passes, ih]
      · simp [image, coarse.alike alike, passes]

theorem all_text {p : Char → Bool} (coarse : IsCoarse p) (cs : List Char) :
    (ρ.text cs).all p = cs.all p := by
  induction cs with
  | nil => rfl
  | cons c cs ih =>
    rcases ρ.image_alike c with ⟨rfl, image⟩ | ⟨d, image, alike⟩
    · simp [image, coarse.breaks, ih]
    · simp [image, coarse.alike alike, ih]

theorem afterSpaces_text (cs : List Char) : afterSpaces (ρ.text cs) = ρ.text (afterSpaces cs) :=
  ρ.dropWhile_text isCoarse_isSpace cs

theorem afterBare_text (cs : List Char) : afterBare (ρ.text cs) = ρ.text (afterBare cs) :=
  ρ.dropWhile_text isCoarse_not_isSpace cs

theorem afterLine_text (cs : List Char) : afterLine (ρ.text cs) = ρ.text (afterLine cs) := by
  induction cs with
  | nil => rfl
  | cons c cs ih =>
    rcases ρ.image_alike c with ⟨rfl, image⟩ | ⟨d, image, alike⟩
    · simp [image, afterLine]
    · have ends : d = '\n' ↔ c = '\n' := alike.eq_iff (by decide)
      rw [text_cons, image, List.singleton_append, afterLine, afterLine, ih]
      by_cases here : c = '\n' <;> simp [ends, here]

theorem afterNote_text (cs : List Char) : afterNote (ρ.text cs) = ρ.text (afterNote cs) := by
  fun_induction afterNote cs with
  | case1 => rfl
  | case2 cs =>
    rw [text_cons, text_cons, ρ.image_of_sign (by decide) (by decide),
      ρ.image_of_sign (by decide) (by decide)]
    rfl
  | case3 c cs inside ih =>
    rw [text_cons, ← ih]
    rcases ρ.image_alike c with ⟨rfl, image⟩ | ⟨d, image, alike⟩
    · rw [image, List.cons_append, List.cons_append, afterNote_cons (by simp), afterNote_cons (by simp)]
      rfl
    · rw [image, List.singleton_append, afterNote_cons]
      intro star slash
      obtain ⟨cs', rfl⟩ := List.head?_eq_some_iff.mp
        ((ρ.head?_text (by decide) (by decide)).mp slash)
      exact inside cs' ((alike.eq_iff (by decide)).mp star) rfl

theorem afterComment?_text (cs : List Char) :
    afterComment? (ρ.text cs) = (afterComment? cs).map ρ.text := by
  have slash (rest : List Char) : ρ.text ('/' :: rest) = '/' :: ρ.text rest := by
    rw [text_cons, ρ.image_of_sign (by decide) (by decide)]
    rfl
  have star (rest : List Char) : ρ.text ('*' :: rest) = '*' :: ρ.text rest := by
    rw [text_cons, ρ.image_of_sign (by decide) (by decide)]
    rfl
  unfold afterComment?
  split
  · rename_i rest opens
    obtain ⟨cs', rfl, after⟩ := (ρ.text_eq_cons_iff (by decide) (by decide)).mp opens
    obtain ⟨cs'', rfl, rfl⟩ := (ρ.text_eq_cons_iff (by decide) (by decide)).mp after.symm
    exact congrArg some (ρ.afterLine_text cs'')
  · rename_i rest opens
    obtain ⟨cs', rfl, after⟩ := (ρ.text_eq_cons_iff (by decide) (by decide)).mp opens
    obtain ⟨cs'', rfl, rfl⟩ := (ρ.text_eq_cons_iff (by decide) (by decide)).mp after.symm
    exact congrArg some (ρ.afterNote_text cs'')
  · rename_i noLine noNote
    split
    · exact absurd (by rw [slash, slash]) (noLine _)
    · exact absurd (by rw [slash, star]) (noNote _)
    · rfl

theorem afterTrivia_text (cs : List Char) : afterTrivia (ρ.text cs) = ρ.text (afterTrivia cs) := by
  fun_induction afterTrivia cs with
  | case1 cs noComment =>
    have noComment' : afterComment? (afterSpaces (ρ.text cs)) = none := by
      rw [afterSpaces_text, afterComment?_text, noComment]
      rfl
    rw [afterTrivia]
    split
    · exact ρ.afterSpaces_text cs
    · rename_i comment
      simp [noComment'] at comment
  | case2 cs rest comment ih =>
    have comment' : afterComment? (afterSpaces (ρ.text cs)) = some (ρ.text rest) := by
      rw [afterSpaces_text, afterComment?_text, comment]
      rfl
    rw [afterTrivia]
    split
    · rename_i noComment
      simp [comment'] at noComment
    · rename_i comment''
      rw [comment'] at comment''
      rw [← Option.some.inj comment'', ih]

theorem afterQuote?_text (cs : List Char) : afterQuote? (ρ.text cs) = (afterQuote? cs).map ρ.text := by
  fun_induction afterQuote? cs with
  | case1 => rfl
  | case2 cs =>
    rw [text_cons, ρ.image_of_sign (by decide) (by decide)]
    rfl
  | case3 c cs ih =>
    rw [text_cons, text_cons, ρ.image_of_sign (by decide) (by decide), ← ih]
    -- an escaped line feed leaves its carriage return escaped and itself plain
    rcases ρ.image_alike c with ⟨rfl, image⟩ | ⟨d, image, -⟩
    · rw [image]
      cases ρ.text cs <;> simp [afterQuote?]
    · rw [image]
      simp [afterQuote?]
  | case4 c cs noQuote noEscape ih =>
    rw [text_cons, ← ih]
    have plain {d : Char} {ds : List Char} (quote : d ≠ '"') (escape : d = '\\' → ds = []) :
        afterQuote? (d :: ds) = afterQuote? ds := by
      rw [afterQuote?]
      · exact quote
      · intro e more isEscape equal
        simp [escape isEscape] at equal
    rcases ρ.image_alike c with ⟨rfl, image⟩ | ⟨d, image, alike⟩
    · rw [image, List.cons_append, List.singleton_append, plain (by decide) (by simp),
        plain (by decide) (by simp)]
    · rw [image, List.singleton_append, plain]
      · intro quote
        exact noQuote ((alike.eq_iff (by decide)).mp quote)
      · intro escape
        rw [ρ.text_eq_nil_iff]
        cases cs with
        | nil => rfl
        | cons e cs => exact absurd rfl (noEscape e cs ((alike.eq_iff (by decide)).mp escape))

theorem afterClosing?_text (depth : Nat) (mode : Mode) (cs : List Char) :
    afterClosing? depth mode (ρ.text cs) = (afterClosing? depth mode cs).map ρ.text := by
  have sign {c : Char} (plain : c.isAlpha = false) (noBreak : c ≠ '\n') (rest : List Char) :
      ρ.text (c :: rest) = c :: ρ.text rest := by
    rw [text_cons, ρ.image_of_sign plain noBreak, List.singleton_append]
  fun_induction afterClosing? depth mode cs with
  | case1 => rfl
  | case2 depth mode c cs opens ih =>
    obtain ⟨code, rfl⟩ : mode.isCode ∧ c = '{' := by simpa using opens
    rw [sign (by decide) (by decide), afterClosing?, if_pos opens, ih]
  | case3 depth mode c cs notOpens closes last =>
    obtain ⟨code, rfl⟩ : mode.isCode ∧ c = '}' := by simpa using closes
    rw [sign (by decide) (by decide), afterClosing?, if_neg notOpens, if_pos closes, if_pos last]
    rfl
  | case4 depth mode c cs notOpens closes inner ih =>
    obtain ⟨code, rfl⟩ : mode.isCode ∧ c = '}' := by simpa using closes
    rw [sign (by decide) (by decide), afterClosing?, if_neg notOpens, if_pos closes, if_neg inner, ih]
  | case5 depth mode c cs notOpens notCloses ih =>
    rw [text_cons, ← ih]
    rcases ρ.image_alike c with ⟨rfl, image⟩ | ⟨d, image, alike⟩
    · rw [image, List.cons_append, List.singleton_append, afterClosing?, if_neg (by simp),
        if_neg (by simp), afterClosing?, if_neg (by simp), if_neg (by simp), Mode.next_return_break]
    · rw [image, List.singleton_append, afterClosing?, if_neg, if_neg, Mode.next_of_alike alike]
      · simpa [alike.eq_iff] using notCloses
      · simpa [alike.eq_iff] using notOpens

theorem afterBlock?_text (cs : List Char) : afterBlock? (ρ.text cs) = (afterBlock? cs).map ρ.text :=
  ρ.afterClosing?_text 0 .code cs

theorem map_toLower_text {cs : List Char} (single : '\n' ∉ cs) :
    (ρ.text cs).map Char.toLower = cs.map Char.toLower := by
  induction cs with
  | nil => rfl
  | cons c cs ih =>
    simp only [List.mem_cons, not_or] at single
    rcases ρ.image_alike c with ⟨rfl, -⟩ | ⟨d, image, alike⟩
    · exact absurd rfl single.1
    · simp [image, ih single.2, show d.toLower = c.toLower from alike.symm]

theorem sameWord_text {cs : List Char} (single : '\n' ∉ cs) (word : List Char) :
    sameWord (ρ.text cs) word = sameWord cs word := by
  rw [sameWord, sameWord, ρ.map_toLower_text single]

theorem find?_text {κ : Type} [WordFamily κ] {cs : List Char} (single : '\n' ∉ cs) :
    WordFamily.find? κ (ρ.text cs) = WordFamily.find? κ cs := by
  unfold WordFamily.find? sameWord
  rw [ρ.map_toLower_text single]

theorem keyword?_text {cs : List Char} (single : '\n' ∉ cs) : keyword? (ρ.text cs) = keyword? cs :=
  ρ.find?_text single

theorem renderState?_text {cs : List Char} (single : '\n' ∉ cs) :
    renderState? (ρ.text cs) = renderState? cs :=
  ρ.find?_text single

theorem sentinel?_text {cs : List Char} (single : '\n' ∉ cs) : sentinel? (ρ.text cs) = sentinel? cs := by
  rw [sentinel?, sentinel?, ρ.keyword?_text single]

theorem not_mem_takeWhile {p : Char → Bool} (stops : p '\n' = false) (cs : List Char) :
    '\n' ∉ cs.takeWhile p := by
  intro member
  have := List.all_eq_true.mp (List.all_takeWhile (p := p) (l := cs)) _ member
  simp [stops] at this

theorem ofValue_text (cs : List Char) :
    Remainder.ofValue (ρ.text cs) =
      ⟨(Remainder.ofValue cs).kind, ρ.text (Remainder.ofValue cs).value,
        ρ.text (Remainder.ofValue cs).rest⟩ := by
  have getD (found : Option (List Char)) : (found.map ρ.text).getD [] = ρ.text (found.getD []) := by
    cases found <;> rfl
  unfold Remainder.ofValue
  split
  · rename_i empty
    rw [ρ.text_eq_nil_iff] at empty
    rw [empty]
    rfl
  · rename_i inside opens
    obtain ⟨inside', rfl, rfl⟩ := (ρ.text_eq_cons_iff (by decide) (by decide)).mp opens
    rw [ρ.afterQuote?_text, getD]
    rfl
  · rename_i inside opens
    obtain ⟨inside', rfl, rfl⟩ := (ρ.text_eq_cons_iff (by decide) (by decide)).mp opens
    rw [ρ.afterBlock?_text, getD]
    rfl
  · rename_i nonempty noQuote noBrace
    have sign {s : Char} (plain : s.isAlpha = false) (noBreak : s ≠ '\n' ∧ s ≠ '\r')
        (other : ∀ rest, ρ.text cs = s :: rest → False) (rest : List Char) (equal : cs = s :: rest) :
        False :=
      other _ ((ρ.text_eq_cons_iff plain noBreak).mpr ⟨rest, equal, rfl⟩)
    split
    · exact absurd rfl nonempty
    · exact (sign (by decide) (by decide) noQuote _ rfl).elim
    · exact (sign (by decide) (by decide) noBrace _ rfl).elim
    · rw [ρ.afterBare_text]

theorem ofName_text {cs afterName : List Char} (within : afterName <:+ cs)
    (single : '\n' ∉ cs.take (cs.length - afterName.length)) :
    Remainder.ofName (ρ.text cs) (ρ.text afterName) =
      ⟨(Remainder.ofName cs afterName).kind, ρ.text (Remainder.ofName cs afterName).value,
        ρ.text (Remainder.ofName cs afterName).rest⟩ := by
  unfold Remainder.ofName
  rw [ρ.afterComment?_text, ρ.take_text within, ρ.sentinel?_text single, ρ.afterSpaces_text]
  cases comment : afterComment? cs with
  | some rest =>
    have shorter := ρ.length_text_lt_iff (afterComment?_suffix comment).1 within
    by_cases less : rest.length < afterName.length
    · simp [shorter, less]
    · simp [shorter, less]
  | none =>
    cases sentinel? (cs.take (cs.length - afterName.length)) with
    | some s => rfl
    | none => exact ρ.ofValue_text _

/-- The margin of a line ends in the same place, but in front of a line feed it may be longer by the
carriage return. -/
theorem dropWhile_isMargin_text (cs : List Char) :
    (ρ.text cs).dropWhile isMargin = ρ.text (cs.dropWhile isMargin) ∨
      ∃ rest, cs.dropWhile isMargin = '\n' :: rest ∧
        (ρ.text cs).dropWhile isMargin = '\n' :: ρ.text rest := by
  induction cs with
  | nil => exact .inl rfl
  | cons c cs ih =>
    rcases ρ.image_alike c with ⟨rfl, image⟩ | ⟨d, image, alike⟩
    · refine .inr ⟨cs, List.dropWhile_cons_of_neg (by decide), ?_⟩
      rw [text_cons, image, List.cons_append, List.dropWhile_cons_of_pos (by decide),
        List.singleton_append, List.dropWhile_cons_of_neg (by decide)]
    · have same : isMargin d = isMargin c := by
        have ends : d = '\n' ↔ c = '\n' := alike.eq_iff (by decide)
        rw [isMargin, isMargin, isCoarse_isSpace.alike alike, isInLine, isInLine, Bool.eq_iff_iff]
        simp [ends]
      by_cases passes : isMargin c
      · simpa [image, same, passes] using ih
      · exact .inl (by simp [image, same, passes])

theorem argument?_text (cs : List Char) :
    argument? (ρ.text cs) = (argument? cs).map fun found => (ρ.text found.1, ρ.text found.2) := by
  have single := not_mem_takeWhile (p := isArgumentChar) (by decide)
  unfold argument?
  rcases ρ.dropWhile_isMargin_text cs with same | ⟨rest, here, here'⟩
  · simp only [same, ρ.takeWhile_text isCoarse_isArgumentChar, ρ.dropWhile_text isCoarse_isArgumentChar,
      ρ.afterComment?_text, ρ.keyword?_text (single _), ρ.renderState?_text (single _),
      Option.isSome_map]
    have empty (word : List Char) : (ρ.text word).isEmpty = word.isEmpty := by
      rw [Bool.eq_iff_iff, List.isEmpty_iff, List.isEmpty_iff, ρ.text_eq_nil_iff]
    rw [empty]
    split <;> rfl
  · have none (after : List Char) : ('\n' :: after).takeWhile isArgumentChar = [] := rfl
    simp [here, here', none]

theorem arguments_text (cs : List Char) :
    arguments (ρ.text cs) = ((arguments cs).1.map ρ.text, ρ.text (arguments cs).2) := by
  fun_induction arguments cs with
  | case1 cs none =>
    rw [arguments]
    split
    · rfl
    · rename_i some
      rw [ρ.argument?_text, none] at some
      simp at some
  | case2 cs word rest found words rest' read ih =>
    rw [read] at ih
    rw [arguments]
    split
    · rename_i none
      rw [ρ.argument?_text, found] at none
      simp at none
    · rename_i word' rest'' found'
      rw [ρ.argument?_text, found] at found'
      obtain ⟨rfl, rfl⟩ := Prod.mk.inj (Option.some.inj found')
      rw [ih]
      rfl

theorem tagToken?_text (cs : List Char) :
    tagToken? (ρ.text cs) = (tagToken? cs).map fun found => (ρ.text found.1, ρ.text found.2) := by
  by_cases quoted : cs.head? = some '"'
  · obtain ⟨cs, rfl⟩ := List.head?_eq_some_iff.mp quoted
    rw [text_cons, ρ.image_of_sign (by decide) (by decide), List.singleton_append]
    cases closes : afterQuote? cs with
    | none => simp [tagToken?, closes, ρ.afterQuote?_text]
    | some rest =>
      have closes' : afterQuote? (ρ.text cs) = some (ρ.text rest) := by
        rw [ρ.afterQuote?_text, closes]
        rfl
      obtain ⟨inside, split, token⟩ := tagToken?_quote closes
      obtain ⟨inside', split', token'⟩ := tagToken?_quote closes'
      rw [split, text_append, text_cons, ρ.image_of_sign (by decide) (by decide),
        List.singleton_append] at split'
      rw [token, token', ← List.append_cancel_right split']
      rfl
  · have bare {ds : List Char} (other : ds.head? ≠ some '"') : tagToken? ds =
        if (ds.dropWhile isTagChar).length < ds.length then
          some (ds.takeWhile isTagChar, ds.dropWhile isTagChar) else none := by
      unfold tagToken?
      split
      · exact absurd rfl other
      · rfl
    have quoted' : (ρ.text cs).head? ≠ some '"' := mt (ρ.head?_text (by decide) (by decide)).mp quoted
    have shorter := ρ.length_text_lt_iff (List.dropWhile_suffix isTagChar) (List.suffix_refl cs)
    rw [bare quoted, bare quoted', ρ.dropWhile_text isCoarse_isTagChar,
      ρ.takeWhile_text isCoarse_isTagChar]
    by_cases less : (cs.dropWhile isTagChar).length < cs.length
    · simp [shorter, less]
    · simp [shorter, less]

end Respelling
end ShaderText
