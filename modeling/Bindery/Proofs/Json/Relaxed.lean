import Mathlib.Data.List.Infix
import Bindery.Json.Relaxed
import Bindery.Proofs.Json.Token

/-!
# Relaxed JSON is JSON with more in it

A relaxed text spells the tokens of a JSON document, with comments as well as blanks in its gaps,
and with a comma more before closing brackets. Taking these out leaves the document's tokens. Texts
of any other kind are changed by that too, but never so that a character changes its line.

* `IsFiller`, `IsEnding`: blanks and comments between the tokens, and at the end of a text.
* `Trails`: tokens with commas before closing brackets.
* `Spares`: what the two passes have in common; `Spares.gap`, `Spares.text`.
* **`Spells.stripComments`**, **`Spells.dropTrailingCommas`**: what each of the two passes leaves.
* `lined`: the characters of a text with their lines.
* **`recovers_plain`**: what is left of relaxed texts, of documents, and of any text.
-/

namespace Bindery.Json

/-! ## Relaxed spellings -/

/-- Blanks and comments that are closed. -/
inductive IsFiller : List Char → Prop
  | nil : IsFiller []
  | blank {c : Char} {cs : List Char} (hc : isBlank c = true) (h : IsFiller cs) : IsFiller (c :: cs)
  | line {body cs : List Char} (hbody : '\n' ∉ body) (h : IsFiller cs) :
      IsFiller ('/' :: '/' :: (body ++ '\n' :: cs))
  | block {body cs : List Char} (hbody : ¬['*', '/'] <:+: body) (h : IsFiller cs) :
      IsFiller ('/' :: '*' :: (body ++ '*' :: '/' :: cs))

/-- Blanks and comments at the end of a text. The last comment may run to that end. -/
inductive IsEnding : List Char → Prop
  | closed {cs : List Char} (h : IsFiller cs) : IsEnding cs
  | line {cs body : List Char} (h : IsFiller cs) (hbody : '\n' ∉ body) :
      IsEnding (cs ++ '/' :: '/' :: body)

/-- Tokens, and the same with at most one more comma before each closing bracket, be there entries
before it or not. -/
inductive Trails : List Token → List Token → Prop
  | nil : Trails [] []
  | cons (t : Token) {ts us : List Token} (h : Trails ts us) : Trails (t :: ts) (t :: us)
  | comma {t : Token} {ts us : List Token} (ht : t.closes = true) (h : Trails ts us) :
      Trails (t :: ts) (.mark ',' :: t :: us)

/-- The characters of a text with their lines, counted from `line` on. -/
def lined (line : Nat) : List Char → List (Nat × Char)
  | [] => []
  | c :: cs => (line, c) :: lined (if c = '\n' then line + 1 else line) cs

section

variable {pass : Place → List Char → List Char} {c x : Char} {g body cs : List Char} {t : Token}
  {ts us : List Token}

/-! ## What both passes leave as it is -/

/-- A pass that leaves strings as they are, and everything outside of them but one character. That
character is no blank and no quote, and does not belong to numbers and words. -/
structure Spares (pass : Place → List Char → List Char) (x : Char) : Prop where
  code : ∀ c cs, c ≠ x → pass .outside (c :: cs) = c :: pass (Place.step .outside c) cs
  string : ∀ place c cs, place ≠ .outside → pass place (c :: cs) = c :: pass (place.step c) cs
  isBlank : isBlank x = false
  isWordChar : isWordChar x = false
  ne_quote : x ≠ '\x22'

namespace Spares

theorem append (h : Spares pass x) (hg : ∀ c ∈ g, c ≠ x ∧ c ≠ '\x22') (cs : List Char) :
    pass .outside (g ++ cs) = g ++ pass .outside cs := by
  induction g with
  | nil => rfl
  | cons c g ih =>
    obtain ⟨⟨hx, hquote⟩, hg⟩ := List.forall_mem_cons.mp hg
    rw [List.cons_append, h.code _ _ hx, Place.step, if_neg hquote, ih hg]
    rfl

theorem gap (h : Spares pass x) (hg : IsGap g) (cs : List Char) :
    pass .outside (g ++ cs) = g ++ pass .outside cs := by
  refine h.append (fun c hc => ⟨?_, ?_⟩) cs
  · rintro rfl
    exact absurd (hg _ hc) (by simp [h.isBlank])
  · rintro rfl
    exact absurd (hg _ hc) (by decide)

theorem tail (h : Spares pass x) (hbody : IsTail body) (cs : List Char) :
    pass .inside (body ++ cs) = body ++ pass .outside cs := by
  refine hbody.walk (P := fun body => pass .inside (body ++ cs) = body ++ pass .outside cs)
    (h.string _ _ _ (by decide)) (fun c body hquote hslash ih => ?_) fun c body ih => ?_
  · rw [List.cons_append, h.string _ _ _ (by decide), Place.step, if_neg hslash, if_neg hquote, ih]
    rfl
  · rw [List.cons_append, List.cons_append, h.string _ _ _ (by decide),
      h.string _ _ _ (by decide)]
    exact congrArg ('\\' :: c :: ·) ih

theorem text (h : Spares pass x) (ht : t.IsProper) (hx : t ≠ .mark x) (cs : List Char) :
    pass .outside (t.text ++ cs) = t.text ++ pass .outside cs := by
  cases t with
  | mark c =>
    have hc : c ≠ x := fun hc => hx (congrArg Token.mark hc)
    exact h.append (by simpa [Token.text] using ⟨hc, (of_mem_marks ht).2.2⟩) cs
  | word w =>
    refine h.append (fun c hc => ⟨?_, ?_⟩) cs
    · rintro rfl
      exact absurd (ht.word.2 _ hc) (by simp [h.isWordChar])
    · rintro rfl
      exact absurd (ht.word.2 _ hc) (by decide)
  | quoted s =>
    obtain ⟨tail, htail, rfl⟩ := ht
    exact (h.code _ _ h.ne_quote.symm).trans (congrArg ('\x22' :: ·) (h.tail htail cs))

end Spares

/-! ## Taking out comments -/

theorem stripFrom_code_cons {place : Place}
    (h : place = .outside → c = '/' → ∀ d ∈ cs.head?, d ≠ '/' ∧ d ≠ '*') :
    stripFrom (.code place) (c :: cs) = c :: stripFrom (.code (place.step c)) cs := by
  rw [stripFrom]
  · rintro ds rfl rfl rfl
    exact (h rfl rfl _ rfl).1 rfl
  · rintro ds rfl rfl rfl
    exact (h rfl rfl _ rfl).2 rfl

theorem stripFrom_lineComment (hbody : '\n' ∉ body) (cs : List Char) :
    stripFrom .lineComment (body ++ '\n' :: cs) = '\n' :: stripComments cs := by
  induction body with
  | nil => simp [stripFrom, stripComments]
  | cons c body ih =>
    obtain ⟨hc, hbody⟩ := not_or.mp (mt List.mem_cons.mpr hbody)
    rw [List.cons_append, stripFrom, if_neg (Ne.symm hc), ih hbody]

theorem stripFrom_lineComment_end (hbody : '\n' ∉ body) : stripFrom .lineComment body = [] := by
  induction body with
  | nil => rfl
  | cons c body ih =>
    obtain ⟨hc, hbody⟩ := not_or.mp (mt List.mem_cons.mpr hbody)
    rw [stripFrom, if_neg (Ne.symm hc), ih hbody]

/-- Of a comment between slashes and stars the line ends are left. -/
theorem stripFrom_blockComment (hbody : ¬['*', '/'] <:+: body) (cs : List Char) :
    stripFrom .blockComment (body ++ '*' :: '/' :: cs) =
      body.filter (· = '\n') ++ stripComments cs := by
  induction body with
  | nil => rfl
  | cons c body ih =>
    have hrest : ¬['*', '/'] <:+: body := fun h => hbody (h.trans (List.infix_cons List.infix_rfl))
    -- The comment does not end here: the slash after a star would have to come from its text.
    have hopen : ∀ ds, c = '*' → body ++ '*' :: '/' :: cs = '/' :: ds → False := by
      rintro ds rfl hds
      cases body with
      | nil => simp at hds
      | cons d body =>
        obtain rfl : d = '/' := (List.cons.inj hds).1
        exact hbody ⟨[], body, rfl⟩
    rw [List.cons_append, stripFrom, ih hrest, List.filter_cons]
    · split <;> simp_all
    · exact hopen

theorem spares_stripFrom : Spares (fun place => stripFrom (.code place)) '/' where
  code _ _ hc := stripFrom_code_cons fun _ h => absurd h hc
  string _ _ _ hplace := stripFrom_code_cons fun h _ => absurd h hplace
  isBlank := rfl
  isWordChar := rfl
  ne_quote := by decide

theorem stripComments_gap (hg : IsGap g) (cs : List Char) :
    stripComments (g ++ cs) = g ++ stripComments cs := spares_stripFrom.gap hg cs

theorem stripComments_text (ht : t.IsProper) (cs : List Char) :
    stripComments (t.text ++ cs) = t.text ++ stripComments cs := by
  refine spares_stripFrom.text ht ?_ cs
  rintro rfl
  exact absurd ht (by decide : '/' ∉ marks)

theorem IsGap.append {f : List Char} (hf : IsGap f) (hg : IsGap g) : IsGap (f ++ g) :=
  List.forall_mem_append.mpr ⟨hf, hg⟩

theorem IsFiller.exists_isGap (h : IsFiller g) :
    ∃ f, IsGap f ∧ ∀ cs, stripComments (g ++ cs) = f ++ stripComments cs := by
  induction h with
  | nil => exact ⟨[], by simp [IsGap], fun _ => rfl⟩
  | @blank c _ hc _ ih =>
    obtain ⟨f, hf, hstrip⟩ := ih
    have hgap : IsGap [c] := by simpa [IsGap] using hc
    refine ⟨[c] ++ f, hgap.append hf, fun cs => ?_⟩
    exact (stripComments_gap hgap _).trans (congrArg ([c] ++ ·) (hstrip cs))
  | line hbody _ ih =>
    obtain ⟨f, hf, hstrip⟩ := ih
    refine ⟨'\n' :: f, List.forall_mem_cons.mpr ⟨rfl, hf⟩, fun cs => ?_⟩
    rw [List.cons_append, List.cons_append, List.append_assoc, List.cons_append, stripComments,
      stripFrom, stripFrom_lineComment hbody, hstrip]
    rfl
  | @block body _ hbody _ ih =>
    obtain ⟨f, hf, hstrip⟩ := ih
    have hgap : IsGap (body.filter (· = '\n')) := fun c hc => by
      obtain rfl : c = '\n' := by simpa using (List.mem_filter.mp hc).2
      rfl
    refine ⟨body.filter (· = '\n') ++ f, hgap.append hf, fun cs => ?_⟩
    rw [List.cons_append, List.cons_append, List.append_assoc, List.cons_append, List.cons_append,
      stripComments, stripFrom, stripFrom_blockComment hbody, hstrip, List.append_assoc]

theorem IsEnding.isGap (h : IsEnding g) : IsGap (stripComments g) := by
  cases h with
  | closed h =>
    obtain ⟨f, hf, hstrip⟩ := h.exists_isGap
    have := hstrip []
    rw [List.append_nil] at this
    rw [this, stripComments, stripFrom, List.append_nil]
    exact hf
  | line h hbody =>
    obtain ⟨f, hf, hstrip⟩ := h.exists_isGap
    rw [hstrip, stripComments, stripFrom, stripFrom_lineComment_end hbody, List.append_nil]
    exact hf

/-- **What is left without comments**: the same tokens, with blanks around them. -/
theorem Spells.stripComments (h : Spells IsFiller IsEnding ts cs) :
    Spells IsGap IsGap ts (stripComments cs) := by
  induction h with
  | last hg => exact .last hg.isGap
  | token hg ht _ ih =>
    obtain ⟨f, hf, hstrip⟩ := hg.exists_isGap
    rw [hstrip, stripComments_text ht]
    exact .token hf ht ih

theorem Spells.stripComments_eq (h : Spells IsGap IsGap ts cs) : Json.stripComments cs = cs := by
  induction h with
  | last hg => simpa [Json.stripComments, stripFrom] using stripComments_gap hg []
  | token hg ht _ ih => rw [stripComments_gap hg, stripComments_text ht, ih]

/-! ## Taking out commas -/

theorem spares_dropFrom : Spares dropFrom ',' where
  code _ _ hc := if_neg fun h => hc h.2.1
  string _ _ _ hplace := if_neg fun h => hplace h.1
  isBlank := rfl
  isWordChar := rfl
  ne_quote := by decide

theorem dropTrailingCommas_gap (hg : IsGap g) (cs : List Char) :
    dropTrailingCommas (g ++ cs) = g ++ dropTrailingCommas cs := spares_dropFrom.gap hg cs

theorem dropTrailingCommas_comma (cs : List Char) :
    dropTrailingCommas (',' :: cs) =
      if closesNext cs then dropTrailingCommas cs else ',' :: dropTrailingCommas cs := by
  rw [dropTrailingCommas, dropFrom]
  by_cases h : closesNext cs = true <;> simp [h, Place.step, dropTrailingCommas]

theorem dropTrailingCommas_text (ht : t.IsProper) (h : t = .mark ',' → closesNext cs = false) :
    dropTrailingCommas (t.text ++ cs) = t.text ++ dropTrailingCommas cs := by
  by_cases hcomma : t = .mark ','
  · subst hcomma
    exact (dropTrailingCommas_comma cs).trans (if_neg (by simp [h rfl]))
  · exact spares_dropFrom.text ht hcomma cs

theorem closesNext_gap (hg : IsGap g) (cs : List Char) : closesNext (g ++ cs) = closesNext cs := by
  have hnone : g.find? (!Text.isBlank ·) = none := List.find?_eq_none.mpr fun c hc => by
    simpa using isBlank_of_isBlank (hg c hc)
  rw [closesNext, List.find?_append, hnone, Option.none_or, closesNext]

/-- The next character closes an array or object if the next token does. -/
theorem Spells.closesNext_eq (h : Spells IsGap IsGap ts cs) :
    closesNext cs = ts.head?.any Token.closes := by
  cases h with
  | last hg => simpa [closesNext] using closesNext_gap hg []
  | token hg ht _ =>
    obtain ⟨c, cs, htext, hblank, -, hclose⟩ := ht.exists_cons
    rw [closesNext_gap hg, htext]
    simp [closesNext, hblank, hclose]

/-- Where tokens may stand as they are, no comma stands before a closing bracket. -/
theorem closes_head_of_isChain (h : (.mark ',' :: ts).IsChain Token.Apart) :
    ts.head?.any Token.closes = false := by
  cases ts with
  | nil => rfl
  | cons u ts => simpa [Token.Apart] using (List.isChain_cons_cons.mp h).1.1

theorem Trails.closes_head (h : Trails ts us) (hts : ts.head?.any Token.closes = false) :
    us.head?.any Token.closes = false := by
  cases h with
  | nil | cons => exact hts
  | comma => rfl

theorem Spells.gap_append (hg : IsGap g) (h : Spells IsGap IsGap ts cs) :
    Spells IsGap IsGap ts (g ++ cs) := by
  cases h with
  | last hf => exact .last (hg.append hf)
  | token hf ht h =>
    rw [← List.append_assoc]
    exact .token (hg.append hf) ht h

/-- **What is left without trailing commas**: the tokens before these were added. -/
theorem Spells.dropTrailingCommas (h : Spells IsGap IsGap us cs) (htrails : Trails ts us)
    (hchain : ts.IsChain Token.Apart) : Spells IsGap IsGap ts (dropTrailingCommas cs) := by
  induction htrails generalizing cs with
  | nil =>
    cases h with
    | @last g hg =>
      have := dropTrailingCommas_gap hg []
      rw [List.append_nil] at this
      rw [this]
      exact .last (by simpa [Json.dropTrailingCommas, dropFrom] using hg)
  | cons t htrails ih =>
    cases h with
    | token hg ht h =>
      have hcomma (ht : t = .mark ',') := htrails.closes_head (closes_head_of_isChain (ht ▸ hchain))
      rw [dropTrailingCommas_gap hg, dropTrailingCommas_text ht fun ht =>
        h.closesNext_eq.trans (hcomma ht)]
      exact .token hg ht (ih h hchain.tail)
  | @comma t ts us hclose htrails ih =>
    cases h with
    | token hg _ h =>
      -- The comma goes, so the gap before it and the gap after it become one.
      have hnext := h.closesNext_eq.trans hclose
      rw [dropTrailingCommas_gap hg, Token.text, List.singleton_append, dropTrailingCommas_comma,
        if_pos hnext]
      cases h with
      | token hf ht h =>
        have hne : t ≠ .mark ',' := by
          rintro rfl
          cases hclose
        rw [dropTrailingCommas_gap hf, dropTrailingCommas_text ht fun ht => absurd ht hne]
        exact .gap_append hg (.token hf ht (ih h hchain.tail))

theorem Spells.dropTrailingCommas_eq (h : Spells IsGap IsGap ts cs)
    (hchain : ts.IsChain Token.Apart) : Json.dropTrailingCommas cs = cs := by
  induction h with
  | last hg => simpa [Json.dropTrailingCommas, dropFrom] using dropTrailingCommas_gap hg []
  | token hg ht h ih =>
    rw [dropTrailingCommas_gap hg, dropTrailingCommas_text ht fun ht =>
      h.closesNext_eq.trans (closes_head_of_isChain (ht ▸ hchain)), ih hchain.tail]

/-- **What is left of a relaxed text** is the document that it was made from, up to blanks. -/
theorem IsDocument.plain {ds : List Char} (h : IsDocument ts ds) (htrails : Trails ts us)
    (hcs : Spells IsFiller IsEnding us cs) : IsDocument ts (plain cs) :=
  ⟨h.derives, hcs.stripComments.dropTrailingCommas htrails h.derives.isChain⟩

/-! ## Any text -/

/-- Where a region leaves the text without its comments. -/
def Region.place : Region → Place
  | code place => place
  | _ => .outside

theorem head?_stripFrom (hslash : '/' ∉ cs.head?) (place : Place) :
    (stripFrom (.code place) cs).head? = cs.head? := by
  cases cs with
  | nil => rfl
  | cons c cs =>
    rw [stripFrom_code_cons fun _ hc => absurd (by rw [hc]; rfl) hslash]
    rfl

/-- No comments are left. A slash that is left outside of strings does not open one, since what
comes after it is left, too. -/
theorem stripFrom_stripFrom (region : Region) (cs : List Char) :
    stripFrom (.code region.place) (stripFrom region cs) = stripFrom region cs := by
  fun_induction stripFrom region cs with
  | case1 => rfl
  | case2 cs ih | case3 cs ih | case7 cs ih => exact ih
  | case6 c cs hc ih | case9 c cs _ hc ih => exact ih
  | case5 cs ih | case8 cs _ ih =>
    exact (stripFrom_code_cons fun _ hc => absurd hc (by decide)).trans (congrArg _ ih)
  | case4 place c cs hline hblock ih =>
    refine (stripFrom_code_cons ?_).trans (congrArg (c :: ·) ih)
    rintro rfl rfl d hd
    have hslash : '/' ∉ cs.head? := fun h => by
      obtain ⟨ds, rfl⟩ := List.head?_eq_some_iff.mp h
      exact hline ds rfl rfl rfl
    rw [head?_stripFrom hslash] at hd
    refine ⟨fun h => hslash (h ▸ hd), ?_⟩
    rintro rfl
    obtain ⟨ds, rfl⟩ := List.head?_eq_some_iff.mp hd
    exact hblock ds rfl rfl rfl

theorem stripComments_stripComments (cs : List Char) :
    stripComments (stripComments cs) = stripComments cs := stripFrom_stripFrom (.code .outside) cs

/-- Characters that are left stay on their lines. -/
theorem lined_stripFrom_sublist (line : Nat) (region : Region) (cs : List Char) :
    (lined line (stripFrom region cs)).Sublist (lined line cs) := by
  fun_induction stripFrom region cs generalizing line with
  | case1 => exact List.Sublist.refl _
  | case2 cs ih => exact .cons _ (.cons _ (ih _))
  | case3 cs ih => exact .cons _ (.cons _ (ih _))
  | case4 place c cs hline hblock ih => exact .cons_cons _ (ih _)
  | case5 cs ih => exact .cons_cons _ (ih _)
  | case6 c cs hc ih =>
    rw [lined, if_neg hc]
    exact .cons _ (ih _)
  | case7 cs ih => exact .cons _ (.cons _ (ih _))
  | case8 cs _ ih => exact .cons_cons _ (ih _)
  | case9 c cs _ hc ih =>
    rw [lined, if_neg hc]
    exact .cons _ (ih _)

theorem lined_dropFrom_sublist (line : Nat) (place : Place) (cs : List Char) :
    (lined line (dropFrom place cs)).Sublist (lined line cs) := by
  induction cs generalizing line place with
  | nil => exact List.Sublist.refl _
  | cons c cs ih =>
    rw [dropFrom]
    split
    · rename_i h
      rw [lined, h.2.1]
      exact .cons _ (ih _ _)
    · exact .cons_cons _ (ih _ _)

end

/-- **The document is recovered, and nothing moves.**

* A relaxed text, which spells the tokens of a document with filler in its gaps and with commas
  before closing brackets, becomes a document with the same tokens, as they are written.
* A document is left as it is.
* Taking out comments twice is taking them out once.
* Each pass leaves all line ends, and all that it leaves stays on its line. -/
theorem recovers_plain :
    (∀ ts us ds cs, IsDocument ts ds → Trails ts us → Spells IsFiller IsEnding us cs →
      IsDocument ts (plain cs) ∧ tokens (plain cs) = tokens ds) ∧
    (∀ ts ds, IsDocument ts ds →
      stripComments ds = ds ∧ dropTrailingCommas ds = ds ∧ plain ds = ds) ∧
    (∀ cs, stripComments (stripComments cs) = stripComments cs) ∧
    (∀ cs, (stripComments cs).count '\n' = cs.count '\n' ∧
      (lined 1 (stripComments cs)).Sublist (lined 1 cs)) ∧
    ∀ cs, (dropTrailingCommas cs).count '\n' = cs.count '\n' ∧
      (lined 1 (dropTrailingCommas cs)).Sublist (lined 1 cs) := by
  refine ⟨fun ts us ds cs hds htrails hcs => ?_, fun ts ds hds => ?_, stripComments_stripComments,
    fun cs => ⟨count_stripComments cs, lined_stripFrom_sublist 1 _ cs⟩,
    fun cs => ⟨count_dropTrailingCommas (by decide) cs, lined_dropFrom_sublist 1 _ cs⟩⟩
  · have hplain := hds.plain htrails hcs
    exact ⟨hplain, hplain.tokens_eq.trans hds.tokens_eq.symm⟩
  · have hstrip := hds.spells.stripComments_eq
    have hdrop := hds.spells.dropTrailingCommas_eq hds.derives.isChain
    refine ⟨hstrip, hdrop, ?_⟩
    rw [plain, hstrip, hdrop]

/-! ### A document that is hard to read -/

/-- The tokens of `{"\",]":[-1.5e2,"//"]}`. -/
def dense : List Token :=
  [.mark '\x7b', .quoted "\x22\\\x22,]\x22".toList, .mark ':', .mark '[', .word "-1.5e2".toList,
    .mark ',', .quoted "\x22//\x22".toList, .mark ']', .mark '\x7d']

/-- The same with a comma before each closing bracket. -/
def denseTrailing : List Token :=
  [.mark '\x7b', .quoted "\x22\\\x22,]\x22".toList, .mark ':', .mark '[', .word "-1.5e2".toList,
    .mark ',', .quoted "\x22//\x22".toList, .mark ',', .mark ']', .mark ',', .mark '\x7d']

/-- Those tokens with quotes, brackets and commas in the comments between them. -/
def denseText : String :=
  "// \x22\n\x7b\x22\\\x22,]\x22:[-1.5e2 ,/*,]*/\x22//\x22, // \x22 ]\n ],\x7d //"

theorem isProper_mark {c : Char} (h : c ∈ marks) : (Token.mark c).IsProper := h

theorem isProper_key : (Token.quoted "\x22\\\x22,]\x22".toList).IsProper :=
  ⟨_, .escape (by decide) (.plain (by decide) (by decide) (by decide)
    (.plain (by decide) (by decide) (by decide) .close)), rfl⟩

theorem isProper_slashes : (Token.quoted "\x22//\x22".toList).IsProper :=
  ⟨_, .plain (by decide) (by decide) (by decide)
    (.plain (by decide) (by decide) (by decide) .close), rfl⟩

theorem isProper_number : (Token.word "-1.5e2".toList).IsProper :=
  have hdigit (d : Char) (hd : d.isDigit = true) : IsDigits [d] := ⟨by simp, by simpa using hd⟩
  .inr ⟨['-'], by simp, ['1'], ['.', '5'], ['e', '2'], ⟨hdigit '1' rfl, fun _ => by simp_all⟩,
    .inr ⟨['5'], hdigit '5' rfl, rfl⟩, .inr ⟨'e', by simp, [], by simp, ['2'], hdigit '2' rfl, rfl⟩,
    rfl⟩

theorem isDocument_dense :
    IsDocument dense "\x7b\x22\\\x22,]\x22:[-1.5e2,\x22//\x22]\x7d".toList := by
  have hgap : IsGap [] := by simp [IsGap]
  have hderives := Derives.object (.member "\x22\\\x22,]\x22".toList
    (.array (.items (.word "-1.5e2".toList) (.item (.string "\x22//\x22".toList)))))
  have hspells : Spells IsGap IsGap dense _ :=
    .token hgap (isProper_mark (by decide)) <| .token hgap isProper_key <|
    .token hgap (isProper_mark (by decide)) <| .token hgap (isProper_mark (by decide)) <|
    .token hgap isProper_number <| .token hgap (isProper_mark (by decide)) <|
    .token hgap isProper_slashes <| .token hgap (isProper_mark (by decide)) <|
    .token hgap (isProper_mark (by decide)) <| .last hgap
  exact ⟨hderives, hspells⟩

theorem trails_dense : Trails dense denseTrailing :=
  .cons _ <| .cons _ <| .cons _ <| .cons _ <| .cons _ <| .cons _ <| .cons _ <|
    .comma rfl <| .comma rfl .nil

theorem spells_denseText : Spells IsFiller IsEnding denseTrailing denseText.toList := by
  have hspace : isBlank ' ' = true := rfl
  have hfirst := @IsFiller.line " \x22".toList [] (by decide) .nil
  have hbracket := @IsFiller.block ",]".toList [] (by decide) .nil
  have hquote := IsFiller.blank hspace <|
    @IsFiller.line " \x22 ]".toList _ (by decide) <| .blank hspace .nil
  have hend := @IsEnding.line _ [] (.blank hspace .nil) (by decide)
  have hspells : Spells IsFiller IsEnding denseTrailing _ :=
    .token hfirst (isProper_mark (by decide)) <| .token .nil isProper_key <|
    .token .nil (isProper_mark (by decide)) <| .token .nil (isProper_mark (by decide)) <|
    .token .nil isProper_number <| .token (.blank hspace .nil) (isProper_mark (by decide)) <|
    .token hbracket isProper_slashes <| .token .nil (isProper_mark (by decide)) <|
    .token hquote (isProper_mark (by decide)) <| .token .nil (isProper_mark (by decide)) <|
    .token .nil (isProper_mark (by decide)) <| .last hend
  exact hspells

/-- What is left of that text is its document, with blanks and a line end where comments were. -/
theorem recovers_plain_dense :
    IsDocument dense "\x7b\x22\\\x22,]\x22:[-1.5e2,\x22//\x22]\x7d".toList ∧
    Trails dense denseTrailing ∧ Spells IsFiller IsEnding denseTrailing denseText.toList ∧
    tokens (plain denseText.toList) = dense ∧
    plain denseText.toList =
      "\n\x7b\x22\\\x22,]\x22:[-1.5e2 ,\x22//\x22 \n ]\x7d ".toList := by
  have htokens := (recovers_plain.1 _ _ _ _ isDocument_dense trails_dense spells_denseText).2
  exact ⟨isDocument_dense, trails_dense, spells_denseText,
    htokens.trans isDocument_dense.tokens_eq, by decide +kernel⟩

end Bindery.Json
