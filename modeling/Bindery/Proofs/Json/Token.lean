import Mathlib.Data.List.Basic
import Mathlib.Data.List.Chain
import Bindery.Json.Reader
import Bindery.Text.Blank

/-!
# The tokens of JSON

What a JSON document is, apart from any way of reading one: tokens that follow the grammar, with
blanks before, between and after them. Tokens are taken as they are written, so that two documents
with the same tokens hold the same strings, byte for byte.

* `Token`, `Token.IsProper`: tokens, and which texts are tokens.
* `Derives`: the grammar; **`Derives.isChain`**: what may stand next to what.
* `Spells`: a text that holds given tokens, with gaps of a given kind around them.
* `IsDocument`: a JSON document and its tokens.
* `tokens`: the tokens of any text; **`IsDocument.tokens_eq`**: those of a document are found.
-/

namespace Bindery.Json

/-! ## Numbers and strings -/

/-- At least one digit, and nothing else. -/
def IsDigits (ds : List Char) : Prop := ds ≠ [] ∧ ∀ d ∈ ds, d.isDigit = true

/-- The digits before the point of a number. None follows a leading zero. -/
def IsWhole (ds : List Char) : Prop := IsDigits ds ∧ (ds.head? = some '0' → ds = ['0'])

/-- The point of a number and the digits after it, or nothing. -/
def IsFraction (cs : List Char) : Prop := cs = [] ∨ ∃ ds, IsDigits ds ∧ cs = '.' :: ds

/-- The power of ten of a number, or nothing. -/
def IsPower (cs : List Char) : Prop :=
  cs = [] ∨ ∃ e ∈ ['e', 'E'], ∃ sign ∈ [[], ['+'], ['-']], ∃ ds, IsDigits ds ∧
    cs = e :: (sign ++ ds)

/-- A number as JSON writes it. -/
def IsNumber (cs : List Char) : Prop :=
  ∃ sign ∈ [[], ['-']], ∃ whole fraction power, IsWhole whole ∧ IsFraction fraction ∧
    IsPower power ∧ cs = sign ++ (whole ++ (fraction ++ power))

/-- The words of JSON. -/
def names : List (List Char) := ["true".toList, "false".toList, "null".toList]

/-- What stands after the opening quote of a string, with its closing quote. -/
inductive IsTail : List Char → Prop
  | close : IsTail ['\x22']
  | plain {c : Char} {cs : List Char} (hquote : c ≠ '\x22') (hslash : c ≠ '\\')
      (hcontrol : 0x20 ≤ c.toNat) (h : IsTail cs) : IsTail (c :: cs)
  | escape {c : Char} {cs : List Char} (hc : c ∈ "\x22\\/bfnrt".toList) (h : IsTail cs) :
      IsTail ('\\' :: c :: cs)
  | code {a b c d : Char} {cs : List Char}
      (hquad : ∀ x ∈ [a, b, c, d], x ∈ "0123456789abcdefABCDEF".toList) (h : IsTail cs) :
      IsTail ('\\' :: 'u' :: a :: b :: c :: d :: cs)

/-- For finding the end of a string it does not matter what is escaped, nor how. -/
theorem IsTail.walk {P : List Char → Prop} {cs : List Char} (h : IsTail cs) (close : P ['\x22'])
    (plain : ∀ c cs, c ≠ '\x22' → c ≠ '\\' → P cs → P (c :: cs))
    (escape : ∀ c cs, P cs → P ('\\' :: c :: cs)) : P cs := by
  induction h with
  | close => exact close
  | plain hquote hslash _ _ ih => exact plain _ _ hquote hslash ih
  | escape _ _ ih => exact escape _ _ ih
  | code hquad _ ih =>
    have hquote : '\x22' ∉ "0123456789abcdefABCDEF".toList := by decide
    have hslash : '\\' ∉ "0123456789abcdefABCDEF".toList := by decide
    have hdigit : ∀ x ∈ _, ∀ cs, P cs → P (x :: cs) := fun x hx cs =>
      plain x cs (ne_of_mem_of_not_mem (hquad x hx) hquote)
        (ne_of_mem_of_not_mem (hquad x hx) hslash)
    exact escape _ _ (hdigit _ (by simp) _ (hdigit _ (by simp) _
      (hdigit _ (by simp) _ (hdigit _ (by simp) _ ih))))

/-! ## Tokens -/

/-- A token, as it is written. -/
inductive Token where
  /-- A bracket, a colon or a comma. -/
  | mark (c : Char)
  /-- A number, or one of the words. -/
  | word (cs : List Char)
  /-- A string with its quotes and escapes. -/
  | quoted (cs : List Char)
  deriving DecidableEq, Repr

/-- The characters that are tokens by themselves. -/
def marks : List Char := ['\x7b', '\x7d', '[', ']', ':', ',']

namespace Token

/-- The token as text. -/
def text : Token → List Char
  | mark c => [c]
  | word cs => cs
  | quoted cs => cs

/-- The token is one that JSON has. -/
def IsProper : Token → Prop
  | mark c => c ∈ marks
  | word cs => cs ∈ names ∨ IsNumber cs
  | quoted cs => ∃ tail, IsTail tail ∧ cs = '\x22' :: tail

/-- The token closes an array or object. -/
def closes : Token → Bool
  | mark c => c = '\x7d' || c = ']'
  | _ => false

/-- The token is a number or a word. -/
def isWord : Token → Bool
  | word _ => true
  | _ => false

/-- Two tokens that may follow each other without a blank, and with no comma too many. -/
def Apart (t u : Token) : Prop :=
  ¬(t = mark ',' ∧ u.closes = true) ∧ ¬(t.isWord = true ∧ u.isWord = true)

end Token

/-! ## The grammar -/

/-- What a sequence of tokens is to be. -/
inductive Phrase where
  | value
  | items
  | members
  deriving DecidableEq, Repr

/-- The grammar of JSON. Between the brackets of an array or object that is not empty stand items or
members. -/
inductive Derives : Phrase → List Token → Prop
  | word (cs : List Char) : Derives .value [.word cs]
  | string (cs : List Char) : Derives .value [.quoted cs]
  | emptyArray : Derives .value [.mark '[', .mark ']']
  | array {ts} (h : Derives .items ts) : Derives .value (.mark '[' :: (ts ++ [.mark ']']))
  | emptyObject : Derives .value [.mark '\x7b', .mark '\x7d']
  | object {ts} (h : Derives .members ts) : Derives .value (.mark '\x7b' :: (ts ++ [.mark '\x7d']))
  | item {ts} (h : Derives .value ts) : Derives .items ts
  | items {ts us} (h : Derives .value ts) (hs : Derives .items us) :
      Derives .items (ts ++ .mark ',' :: us)
  | member (key : List Char) {ts} (h : Derives .value ts) :
      Derives .members (.quoted key :: .mark ':' :: ts)
  | members (key : List Char) {ts us} (h : Derives .value ts) (hs : Derives .members us) :
      Derives .members (.quoted key :: .mark ':' :: (ts ++ .mark ',' :: us))

section

variable {t : Token} {ts us : List Token} {p : Phrase}

/-- A token that is neither a comma nor a word may stand before any other. -/
theorem isChain_apart_cons (hcomma : t ≠ .mark ',') (hword : t.isWord = false)
    (h : ts.IsChain Token.Apart) : (t :: ts).IsChain Token.Apart :=
  List.isChain_cons.mpr
    ⟨fun _ _ => ⟨fun hc => hcomma hc.1, fun hw => absurd hw.1 (by simp [hword])⟩, h⟩

theorem Derives.exists_cons (h : Derives p ts) : ∃ t us, ts = t :: us ∧ t.closes = false := by
  induction h with
  | word | string | emptyArray | array | emptyObject | object | member | members =>
    exact ⟨_, _, rfl, rfl⟩
  | item _ ih => exact ih
  | items _ _ ih =>
    obtain ⟨t, ts, rfl, ht⟩ := ih
    exact ⟨t, _, rfl, ht⟩

theorem Derives.isChain_comma (h : Derives p ts) (hchain : (ts ++ us).IsChain Token.Apart) :
    (.mark ',' :: (ts ++ us)).IsChain Token.Apart := by
  obtain ⟨t, ts, rfl, ht⟩ := h.exists_cons
  refine List.isChain_cons.mpr ⟨fun u hu => ?_, hchain⟩
  obtain rfl : t = u := by simpa using hu
  exact ⟨fun hc => absurd hc.2 (by simp [ht]), fun hw => absurd hw.1 (by decide)⟩

theorem Derives.isChain_append (h : Derives p ts) (hchain : us.IsChain Token.Apart)
    (hword : ∀ u ∈ us.head?, u.isWord = false) : (ts ++ us).IsChain Token.Apart := by
  induction h generalizing us with
  | word cs =>
    refine List.isChain_cons.mpr ⟨fun u hu => ⟨fun hc => ?_, fun hw => ?_⟩, hchain⟩
    · cases hc.1
    · exact absurd hw.2 (by simp [hword u hu])
  | string cs => exact isChain_apart_cons (by simp) rfl hchain
  | emptyArray | emptyObject =>
    exact isChain_apart_cons (by simp) rfl (isChain_apart_cons (by simp) rfl hchain)
  | array _ ih | object _ ih =>
    rw [List.cons_append, List.append_assoc]
    exact isChain_apart_cons (by simp) rfl
      (ih (isChain_apart_cons (by simp) rfl hchain) (by simp [Token.isWord]))
  | item _ ih => exact ih hchain hword
  | items _ hs ih ihs =>
    rw [List.append_assoc]
    exact ih (hs.isChain_comma (ihs hchain hword)) (by simp [Token.isWord])
  | member _ _ ih =>
    exact isChain_apart_cons (by simp) rfl
      (isChain_apart_cons (by simp) rfl (ih hchain hword))
  | members _ _ hs ih ihs =>
    rw [List.cons_append, List.cons_append, List.append_assoc]
    exact isChain_apart_cons (by simp) rfl (isChain_apart_cons (by simp) rfl
      (ih (hs.isChain_comma (ihs hchain hword)) (by simp [Token.isWord])))

/-- **What stands next to what in JSON**: no comma before a closing bracket, no word before a
word. -/
theorem Derives.isChain (h : Derives p ts) : ts.IsChain Token.Apart := by
  simpa using h.isChain_append (.nil : List.IsChain Token.Apart []) (by simp)

end

/-! ## Spellings -/

/-- Nothing but blanks. -/
def IsGap (cs : List Char) : Prop := ∀ c ∈ cs, isBlank c = true

/-- A text that holds given tokens, with a gap before each of them and another one after the
last. -/
inductive Spells (Gap Last : List Char → Prop) : List Token → List Char → Prop
  | last {g : List Char} (hg : Last g) : Spells Gap Last [] g
  | token {g cs : List Char} {t : Token} {ts : List Token} (hg : Gap g) (ht : t.IsProper)
      (h : Spells Gap Last ts cs) : Spells Gap Last (t :: ts) (g ++ (t.text ++ cs))

/-- A JSON document and its tokens. -/
structure IsDocument (ts : List Token) (cs : List Char) : Prop where
  derives : Derives .value ts
  spells : Spells IsGap IsGap ts cs

/-! ## The tokens of a text -/

/-- A character of numbers or words. -/
def isWordChar (c : Char) : Bool := c.isAlphanum || c = '+' || c = '-' || c = '.'

/-- The number of characters of a string after its opening quote. A string that is not closed runs
to the end of the text. -/
def tailLength : List Char → Nat
  | '\x22' :: _ => 1
  | '\\' :: _ :: cs => tailLength cs + 2
  | _ :: cs => tailLength cs + 1
  | [] => 0

/-- The tokens of a text: strings, words as long as can be, and all other characters that are not
blank. -/
def tokens : List Char → List Token
  | [] => []
  | c :: cs =>
    if isBlank c then tokens cs
    else if c = '\x22' then
      .quoted (c :: cs.take (tailLength cs)) :: tokens (cs.drop (tailLength cs))
    else if isWordChar c then
      .word (c :: cs.takeWhile isWordChar) :: tokens (cs.dropWhile isWordChar)
    else .mark c :: tokens cs
termination_by cs => cs.length
decreasing_by
  · exact Nat.lt_succ_self _
  · rw [List.length_drop, List.length_cons]
    omega
  · exact Nat.lt_succ_of_le (List.dropWhile_sublist isWordChar).length_le
  · exact Nat.lt_succ_self _

/-! ### The characters of tokens -/

theorem isBlank_of_isBlank {c : Char} (h : isBlank c = true) : Text.isBlank c = true := by
  simp only [isBlank, Bool.or_eq_true, decide_eq_true_eq] at h
  rcases h with ((rfl | rfl) | rfl) | rfl <;> decide

theorem isBlank_eq_false {c : Char} (h : Text.isBlank c = false) : isBlank c = false := by
  rw [← Bool.not_eq_true] at h ⊢
  exact mt isBlank_of_isBlank h

theorem toNat_of_isWordChar {c : Char} (h : isWordChar c = true) :
    0x2B ≤ c.toNat ∧ c.toNat ≤ 0x7A := by
  delta isWordChar Char.isAlphanum Char.isAlpha Char.isUpper Char.isLower Char.isDigit at h
  simp only [Bool.or_eq_true, Bool.and_eq_true, decide_eq_true_eq, ge_iff_le,
    UInt32.le_iff_toNat_le] at h
  rcases h with ((h | rfl) | rfl) | rfl
  · simp only [Char.reduceVal, UInt32.reduceToNat] at h
    change 0x2B ≤ c.val.toNat ∧ c.val.toNat ≤ 0x7A
    omega
  all_goals decide

theorem isBlank_of_isWordChar {c : Char} (h : isWordChar c = true) : Text.isBlank c = false := by
  have hbounds := toNat_of_isWordChar h
  rw [← Bool.not_eq_true]
  intro hblank
  obtain ⟨r, hr, hc⟩ := List.any_eq_true.mp hblank
  simp only [Bool.and_eq_true, decide_eq_true_eq] at hc
  have hout : ∀ r ∈ Text.blankRanges, r.2 < 0x2B ∨ 0x7A < r.1 := by decide
  have := hout r hr
  omega

theorem isWordChar_of_isDigit {c : Char} (h : c.isDigit = true) : isWordChar c = true := by
  simp [isWordChar, Char.isAlphanum, h]

section

variable {c : Char} {cs ds : List Char} {t : Token} {ts : List Token}

theorem of_mem_marks (h : c ∈ marks) :
    Text.isBlank c = false ∧ isWordChar c = false ∧ c ≠ '\x22' := by
  simp only [marks, List.mem_cons, List.not_mem_nil, or_false] at h
  rcases h with rfl | rfl | rfl | rfl | rfl | rfl <;> decide

theorem isWordChar_of_mem_sign (h : cs ∈ [[], ['+'], ['-']]) : ∀ c ∈ cs, isWordChar c = true := by
  have hsigns : ∀ cs ∈ [[], ['+'], ['-']], cs.all isWordChar = true := by decide
  exact List.all_eq_true.mp (hsigns cs h)

theorem IsFraction.isWordChar (h : IsFraction cs) : ∀ c ∈ cs, isWordChar c = true := by
  rcases h with rfl | ⟨ds, hds, rfl⟩
  · simp
  · exact List.forall_mem_cons.mpr ⟨rfl, fun c hc => isWordChar_of_isDigit (hds.2 c hc)⟩

theorem IsPower.isWordChar (h : IsPower cs) : ∀ c ∈ cs, isWordChar c = true := by
  rcases h with rfl | ⟨e, he, sign, hsign, ds, hds, rfl⟩
  · simp
  · have hletter : Json.isWordChar e = true := by
      simp only [List.mem_cons, List.not_mem_nil, or_false] at he
      rcases he with rfl | rfl <;> rfl
    exact List.forall_mem_cons.mpr ⟨hletter, List.forall_mem_append.mpr
      ⟨isWordChar_of_mem_sign hsign, fun c hc => isWordChar_of_isDigit (hds.2 c hc)⟩⟩

theorem Token.IsProper.word (h : (Token.word cs).IsProper) :
    cs ≠ [] ∧ ∀ c ∈ cs, isWordChar c = true := by
  rcases h with h | ⟨sign, hsign, whole, fraction, power, hwhole, hfraction, hpower, rfl⟩
  · have hnames : ∀ cs ∈ names, cs ≠ [] ∧ cs.all isWordChar = true := by decide
    exact ⟨(hnames cs h).1, List.all_eq_true.mp (hnames cs h).2⟩
  · refine ⟨by simp [hwhole.1.1], ?_⟩
    have hsign' : sign ∈ [[], ['+'], ['-']] := by
      simp only [List.mem_cons, List.not_mem_nil, or_false] at hsign ⊢
      exact hsign.imp_right .inr
    exact List.forall_mem_append.mpr ⟨isWordChar_of_mem_sign hsign', List.forall_mem_append.mpr
      ⟨fun c hc => isWordChar_of_isDigit (hwhole.1.2 c hc), List.forall_mem_append.mpr
        ⟨hfraction.isWordChar, hpower.isWordChar⟩⟩⟩

/-- A token begins with a character that is not blank. It is a character of words only if the token
is a word, and a closing bracket only if the token is one. -/
theorem Token.IsProper.exists_cons (h : t.IsProper) :
    ∃ c cs, t.text = c :: cs ∧ Text.isBlank c = false ∧ isWordChar c = t.isWord ∧
      (c = '\x7d' || c = ']') = t.closes := by
  cases t with
  | mark c =>
    obtain ⟨hblank, hchar, -⟩ := of_mem_marks h
    exact ⟨c, [], rfl, hblank, hchar, rfl⟩
  | word cs =>
    obtain ⟨hne, hcs⟩ := h.word
    obtain ⟨c, cs, rfl⟩ := List.exists_cons_of_ne_nil hne
    have hc := hcs c List.mem_cons_self
    have hclose : c ≠ '\x7d' ∧ c ≠ ']' := by
      constructor <;> rintro rfl <;> exact absurd hc (by decide)
    exact ⟨c, cs, rfl, isBlank_of_isWordChar hc, hc, by simpa [Token.closes] using hclose⟩
  | quoted cs =>
    obtain ⟨tail, -, rfl⟩ := h
    exact ⟨'\x22', tail, rfl, by decide, rfl, rfl⟩

/-! ### Finding tokens -/

theorem tailLength_append (h : IsTail cs) (rest : List Char) :
    tailLength (cs ++ rest) = cs.length := by
  refine h.walk (P := fun cs => tailLength (cs ++ rest) = cs.length) rfl
    (fun c cs hquote hslash ih => ?_) fun c cs ih => ?_
  · rw [List.cons_append, tailLength, ih, List.length_cons]
    · exact hquote
    · exact fun _ _ hc => absurd hc hslash
  · rw [List.cons_append, List.cons_append, tailLength, ih]
    rfl

theorem tokens_gap (hg : IsGap cs) (rest : List Char) : tokens (cs ++ rest) = tokens rest := by
  induction cs with
  | nil => rfl
  | cons c cs ih =>
    obtain ⟨hc, hcs⟩ := List.forall_mem_cons.mp hg
    rw [List.cons_append, tokens, if_pos hc, ih hcs]

theorem takeWhile_isWordChar (hcs : ∀ c ∈ cs, isWordChar c = true)
    (hnext : ∀ c ∈ ds.head?, isWordChar c = false) :
    (cs ++ ds).takeWhile isWordChar = cs ∧ (cs ++ ds).dropWhile isWordChar = ds := by
  rw [List.takeWhile_append_of_pos hcs, List.dropWhile_append_of_pos hcs]
  cases ds with
  | nil => simp
  | cons d ds => simp [hnext d rfl]

/-- The token at the front of a text. A word ends where its characters do. -/
theorem tokens_text (ht : t.IsProper)
    (hword : t.isWord = true → ∀ c ∈ cs.head?, isWordChar c = false) :
    tokens (t.text ++ cs) = t :: tokens cs := by
  cases t with
  | mark c =>
    obtain ⟨hblank, hchar, hquote⟩ := of_mem_marks ht
    simp [Token.text, tokens, isBlank_eq_false hblank, hquote, hchar]
  | word w =>
    obtain ⟨hne, hw⟩ := ht.word
    obtain ⟨c, w, rfl⟩ := List.exists_cons_of_ne_nil hne
    obtain ⟨hc, hw⟩ := List.forall_mem_cons.mp hw
    obtain ⟨htake, hdrop⟩ := takeWhile_isWordChar hw (hword rfl)
    have hquote : c ≠ '\x22' := by
      rintro rfl
      exact absurd hc (by decide)
    simp [Token.text, tokens, isBlank_eq_false (isBlank_of_isWordChar hc), hquote, hc, htake, hdrop]
  | quoted s =>
    obtain ⟨tail, htail, rfl⟩ := ht
    have hblank : isBlank '\x22' = false := by decide
    simp [Token.text, tokens, hblank, tailLength_append htail]

theorem IsGap.isWordChar_of_mem (hg : IsGap cs) (hc : c ∈ cs) : isWordChar c = false := by
  rw [← Bool.not_eq_true]
  intro hchar
  have hblank := isBlank_eq_false (isBlank_of_isWordChar hchar)
  cases hblank.symm.trans (hg c hc)

/-- A text goes on after a word with a blank, or with another token. -/
theorem Spells.isWordChar_head (h : Spells IsGap IsGap ts cs)
    (hts : ∀ u ∈ ts.head?, u.isWord = false) : ∀ c ∈ cs.head?, isWordChar c = false := by
  cases h with
  | last hg => exact fun c hc => hg.isWordChar_of_mem (List.mem_of_mem_head? hc)
  | @token g cs u ts hg hu h =>
    obtain ⟨d, ds, htext, -, hd, -⟩ := hu.exists_cons
    intro c hc
    cases g with
    | nil =>
      obtain rfl : d = c := by simpa [htext] using hc
      exact hd.trans (hts u rfl)
    | cons b g =>
      obtain rfl : b = c := by simpa using hc
      exact hg.isWordChar_of_mem List.mem_cons_self

theorem Spells.tokens_eq (h : Spells IsGap IsGap ts cs) (hchain : ts.IsChain Token.Apart) :
    tokens cs = ts := by
  induction h with
  | last hg => simpa [tokens] using tokens_gap hg []
  | token hg ht h ih =>
    obtain ⟨hapart, hchain⟩ := List.isChain_cons.mp hchain
    rw [tokens_gap hg, tokens_text ht fun hword => h.isWordChar_head fun u hu => ?_, ih hchain]
    rw [← Bool.not_eq_true]
    exact fun hu' => (hapart u hu).2 ⟨hword, hu'⟩

/-- **The tokens of a document are found**, in their order and as they are written. -/
theorem IsDocument.tokens_eq (h : IsDocument ts cs) : tokens cs = ts :=
  h.spells.tokens_eq h.derives.isChain

end

end Bindery.Json
