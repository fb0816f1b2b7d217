import Mathlib
import Wordy.Proofs.Admits
import Wordy.Proofs.ParsedForms

/-! What has the form that the grammar gives it is read, under the standard phrases. -/

namespace Wordy

open Text Phrasebook Reader

namespace Phrasebook

theorem isQuote_iff {quote : Char} :
    isQuote quote = true ↔ quote = '\x27' ∨ quote = '\x22' ∨ quote = '\x60' := by
  simp [isQuote, or_assoc]

theorem lower_of_isQuote {quote : Char} (h : isQuote quote = true) :
    isBlank quote = false ∧ lower quote = [quote] ∧ quote ∉ phraseLetters := by
  rcases isQuote_iff.mp h with rfl | rfl | rfl <;> decide

theorem standard_after?_of_quote {t : Token} (ht : t ∈ Token.spelled) {quote : Char}
    (hq : isQuote quote = true) (text : List Char) :
    standard.after? t (quote :: text) = none := by
  obtain ⟨hb, hl, hn⟩ := lower_of_isQuote hq
  rw [standard_after? ht]
  cases hw : t.words with
  | nil => exact absurd hw (Token.words_ne_nil t)
  | cons w ws =>
    rw [Phrase.afterWords?, if_neg]
    intro hlow
    have hword : word (quote :: text) = quote :: word text := by simp [word, hb]
    rw [hword] at hlow
    cases w with
    | nil => simp [Lowers] at hlow
    | cons x w =>
      simp only [Lowers, List.map_cons, hl, List.cons.injEq, and_true] at hlow
      refine hn ?_
      rw [hlow.1]
      exact Token.mem_phraseLetters ht (w := x :: w) (by simp [hw]) List.mem_cons_self

end Phrasebook

/-- Where an atom stands no phrase of one word does, but for the truth values themselves. -/
theorem Leads.atom {a : Atom} {l : Lexeme} {ls : List Lexeme} {later former : List Token}
    (ha : a.Written l) (hf : ∀ u ∈ former, u ∈ Token.spelled ∧ u.words.length = 1)
    (ht : ∀ v, a = .truth v → ∀ u ∈ former, (Atom.truthToken v).Apart u) :
    Leads (l :: ls) later former := by
  intro text rest hr _ u hm
  obtain ⟨hu, hlen⟩ := hf u hm
  cases hr with
  | cons hn _ =>
    cases hn with
    | token h =>
      cases ha
      exact standard_after?_eq_none (ht _ rfl u hm) h
    | word hne hres =>
      by_contra hc
      obtain ⟨r, h⟩ := Option.ne_none_iff_exists'.mp hc
      rw [isReserved_of_after? hu hlen h] at hres
      cases hres
    | quotation h =>
      obtain ⟨quote, hq, -, hs⟩ := quoted?_eq_some h
      rw [hs]
      exact standard_after?_of_quote hu hq _

theorem Leads.not_truth {a : Atom} {l : Lexeme} (ha : a.Written l) (hv : ∀ v, a ≠ .truth v) :
    Leads [l] [] ([true, false].map Atom.truthToken) :=
  .atom ha (by decide) fun v h => absurd h (hv v)

namespace Atom

variable {n : Nat}

theorem isDigit_eq_false_of_isAlpha {c : Char} (ha : c.isAlpha = true) : c.isDigit = false := by
  by_contra hd
  simp only [Bool.not_eq_false, Char.isDigit, Char.isAlpha, Char.isUpper, Char.isLower,
    Bool.or_eq_true, Bool.and_eq_true, decide_eq_true_eq, UInt32.le_iff_toNat_le] at hd ha
  have h9 : '9'.val.toNat = 57 := rfl
  have hA : 'A'.val.toNat = 65 := rfl
  have ha' : 'a'.val.toNat = 97 := rfl
  omega

theorem isNumber_eq_false {word : List Char} (h : IsVariable word) : isNumber word = false := by
  by_contra hn
  rw [Bool.not_eq_false, isNumber_iff] at hn
  obtain ⟨c, more, rfl, ha, -⟩ := h
  rcases hn.mem c List.mem_cons_self with rfl | rfl | hd
  · exact absurd ha (by decide)
  · exact absurd ha (by decide)
  · rw [isDigit_eq_false_of_isAlpha ha] at hd
    cases hd

theorem ofWord?_of_written {w : String} {a : Atom} (h : a.Written (.word w)) :
    ofWord? w = some a := by
  cases h with
  | number h => rw [ofWord?, if_pos ((isNumber_iff _).mpr h)]
  | reference h =>
    rw [ofWord?, if_neg (by simp [isNumber_eq_false h]), if_pos ((isReference_iff _).mpr h)]

theorem not_isQuote_head? {w : String} {a : Atom} (h : a.Written (.word w)) :
    ∀ c ∈ w.toList.head?, isQuote c = false := by
  intro c hc
  obtain ⟨more, hw⟩ := List.head?_eq_some_iff.mp hc
  by_contra hq
  have hquote : c.isDigit = false ∧ c.isAlpha = false ∧ c ≠ '-' ∧ c ≠ '.' := by
    rcases isQuote_iff.mp (by simpa using hq) with rfl | rfl | rfl <;> decide
  obtain ⟨hd, ha, hm, hp⟩ := hquote
  cases h with
  | number h =>
    rcases h.mem c (hw ▸ List.mem_cons_self) with hc | hc | hc
    · exact hm hc
    · exact hp hc
    · rw [hd] at hc
      cases hc
  | reference h =>
    obtain ⟨d, more', he, halpha, -⟩ := h
    rw [hw] at he
    obtain rfl : c = d := (List.cons.inj he).1
    rw [halpha] at ha
    cases ha

theorem admits_quotation?_none {β : Type} {f : Option String → Reader β} {b : β} {w : String}
    {ls : List Lexeme} {ts : List Token} (hw : ∀ c ∈ w.toList.head?, isQuote c = false)
    (hf : Admits n (f none) b (.word w :: ls) ts) :
    Admits n (quotation? >>= f) b (.word w :: ls) ts := by
  intro c rest hc hr hs
  have hq : quoted? c.ahead = none := by
    cases hr with
    | cons hn _ =>
      cases hn with
      | word hne _ =>
        change quoted? (skipBlank c.rest) = none
        have hword := word_skipBlank_ne_nil hne
        cases ht : skipBlank c.rest with
        | nil => exact absurd ht hne
        | cons q t =>
          rw [ht] at hw hword
          -- The text begins with the word, and the word does not begin with a quotation mark.
          have hb : isBlank q = false := by
            by_contra hb
            exact hword (by simp [word, hb])
          rw [quoted?, if_neg]
          simpa using hw q (by simp [word, hb])
  obtain ⟨tried, hb⟩ := hf hc hr hs
  exact ⟨tried, bind_eq_ok.mpr ⟨none, c, quotation?_eq_of_none hq, hb⟩⟩

theorem admits_readWord {w : String} {a : Atom} (h : a.Written (.word w)) :
    Admits n (readWord standard) a [.word w] [] := by
  unfold readWord
  refine .ahead fun start => ?_
  intro c rest hc hr hs
  obtain ⟨tried, hn⟩ := admits_name hc hr hs
  refine ⟨tried, bind_eq_ok.mpr ⟨w, _, hn, ?_⟩⟩
  rw [ofWord?_of_written h]
  rfl

theorem admits_quotation?_some {contents : String} :
    Admits n quotation? (some contents) [.quotation contents] [] := by
  intro c rest _ hr _
  cases hr with
  | cons hn hr =>
    cases hr
    cases hn with
    | quotation h => exact ⟨[], quotation?_eq_of_some h⟩

theorem Written.endOfInput_ne {a : Atom} {l : Lexeme} (h : a.Written l) :
    .token .endOfInput ≠ l := by
  cases h with
  | @truth value => cases value <;> simp [truthToken]
  | _ => simp

theorem admits_read {a : Atom} {l : Lexeme} (h : a.Written l) :
    Admits n (read standard) a [l] [] := by
  unfold read
  cases h with
  | @truth value =>
    have hv : Admits n (take? standard truthToken [true, false]) (some value)
        [.token (truthToken value)] [] :=
      admits_take?_some (by cases value <;> simp) (by cases value <;> decide)
    exact hv.bind .pure .none
  | text =>
    exact admits_take?_none.bind (admits_quotation?_some.bind .pure .none) (.not_truth .text nofun)
  | number h =>
    have hw := Written.number h
    exact admits_take?_none.bind
      (admits_quotation?_none (not_isQuote_head? hw) (admits_readWord hw)) (.not_truth hw nofun)
  | reference h =>
    have hw := Written.reference h
    exact admits_take?_none.bind
      (admits_quotation?_none (not_isQuote_head? hw) (admits_readWord hw)) (.not_truth hw nofun)

end Atom

namespace BinaryOperator

/-- The tokens that go on with a chain. -/
def tokens : List Token := all.map token

/-- An operator before another one in the list begins with it or is apart from it. -/
theorem exists_earlier (o : BinaryOperator) :
    ∃ earlier later, all = earlier ++ o :: later ∧ ∀ p ∈ earlier, o.token.Apart p.token ∨
      (o.token, p.token) ∈ Token.comparisons :=
  ⟨all.takeWhile (· != o), (all.dropWhile (· != o)).tail, by cases o <;> rfl,
    by cases o <;> decide⟩

/-- The longer comparisons are looked for first, and go on with "or". -/
theorem admits_take? {n : Nat} (o : BinaryOperator) :
    Admits n (take? standard token all) (some o) [.token o.token] [.orWord] := by
  intro c rest _ hr hs
  cases hr with
  | cons hn hr =>
    cases hr
    have ha := Lexeme.Next.token_iff.mp hn
    obtain ⟨earlier, later, hall, he⟩ := exists_earlier o
    have hsome : standard.first c.ahead token all = (earlier.map token, some (o, rest)) := by
      rw [hall]
      refine first_append_cons (fun p hp => ?_) ha
      rcases he p hp with h | h
      · exact standard_after?_eq_none h ha
      · by_contra hc
        obtain ⟨r, hp⟩ := Option.ne_none_iff_exists'.mp hc
        obtain ⟨r', hor⟩ := standard_after?_or h ha hp
        have hskip : skipBlank rest = rest := by
          have hm : o.token ∈ Token.spelled := by cases o <;> decide
          rw [standard_after? hm] at ha
          exact Phrase.skipBlank_of_afterWords? (Token.words_ne_nil _) ha
        have := hs .orWord List.mem_cons_self
        rw [hskip, hor] at this
        cases this
    exact ⟨[], take?_eq_of_some (by rw [hsome])⟩

end BinaryOperator

namespace Link

variable {n : Nat}

theorem admits_negation : Admits n (read standard) (.inl .negation) [.token .notWord] [] :=
  admits_accept_true.bind .pure .none

theorem leads_atom {a : Atom} {l : Lexeme} {ls : List Lexeme} {later : List Token}
    (h : a.Written l) : Leads (l :: ls) later [.notWord] :=
  .atom h (by decide) fun v _ => by cases v <;> decide

theorem admits_operation {a : Atom} {l : Lexeme} (h : a.Written l) (o : BinaryOperator) :
    Admits n (read standard) (.inl (.operation a o)) [l, .token o.token] [.orWord] :=
  admits_accept_false.bind ((Atom.admits_read h).bind
    (o.admits_take?.bind .pure (.nil (List.Subset.refl _))) .none) (leads_atom h)

theorem admits_last {a : Atom} {l : Lexeme} (h : a.Written l) :
    Admits n (read standard) (.inr a) [l] BinaryOperator.tokens :=
  admits_accept_false.bind ((Atom.admits_read h).bind
    (admits_take?_none.bind .pure (.nil (List.Subset.refl _))) .none) (leads_atom h)

end Link

namespace Expression

variable {n : Nat}

def chain : Expression → List Link × Atom
  | atom a => ([], a)
  | negation e => (.negation :: e.chain.1, e.chain.2)
  | binary a o e => (.operation a o :: e.chain.1, e.chain.2)

theorem ofChain_chain (e : Expression) : ofChain e.chain.1 e.chain.2 = e := by
  induction e with
  | atom a => rfl
  | negation e ih => exact congrArg negation ih
  | binary a o e ih => exact congrArg (binary a o) ih

theorem Written.leads_or {e : Expression} {ls : List Lexeme} {later : List Token}
    (h : e.Written ls) : Leads ls later [.orWord] := by
  cases h with
  | atom h => exact .atom h (by decide) fun v _ => by cases v <;> decide
  | negation _ => exact .token (by decide)
  | binary h _ => exact .atom h (by decide) fun v _ => by cases v <;> decide

theorem admits_readChain {e : Expression} {ls : List Lexeme} (h : e.Written ls)
    (start : List Char) {limit : Nat} (hl : e.operators ≤ limit) :
    Admits n (readChain standard start limit) e.chain ls BinaryOperator.tokens := by
  induction h generalizing limit with
  | atom h =>
    cases limit <;> exact (Link.admits_last h).bind .pure (.nil (List.Subset.refl _))
  | negation he ih =>
    cases limit with
    | zero => exact absurd hl (Nat.not_succ_le_zero _)
    | succ limit =>
      exact Link.admits_negation.bind (ih (Nat.le_of_succ_le_succ hl)).map .none
  | binary ha he ih =>
    cases limit with
    | zero => exact absurd hl (Nat.not_succ_le_zero _)
    | succ limit =>
      exact (Link.admits_operation ha _).bind (ih (Nat.le_of_succ_le_succ hl)).map he.leads_or

theorem admits_read {e : Expression} {ls : List Lexeme} (h : e.Stated ls) :
    Admits n (read standard) e ls BinaryOperator.tokens := by
  unfold read
  refine .ahead fun start => ?_
  have hr := (admits_readChain (n := n) h.1 start h.2).map (f := fun c => ofChain c.1 c.2)
  rwa [ofChain_chain] at hr

end Expression

namespace Reader

variable {α : Type} {n : Nat} {separator : Token} {item : Reader α} {stops : List Token}

theorem admits_others_nil {limit : Nat} (hn : n ≤ limit) :
    Admits n (others (accept standard separator) item limit) [] [] (separator :: stops) := by
  cases limit with
  | zero =>
    obtain rfl := Nat.le_zero.mp hn
    exact admits_zero
  | succ limit =>
    exact admits_accept_false.bind .pure (.nil (by simp))

theorem admits_others {as : List α} {ls : List Lexeme} (hsep : separator ∈ Token.spelled)
    (hstops : ∀ u ∈ stops, separator.Apart u)
    (h : Separated separator (fun a ls => Admits n item a ls stops) as ls) {m limit : Nat}
    (hm : m ≤ limit) (hn : m ≤ n) :
    Admits m (others (accept standard separator) item limit) as (.token separator :: ls)
      (separator :: stops) := by
  induction h generalizing m limit with
  | @one a ls ha =>
    cases limit with
    | zero =>
      obtain rfl := Nat.le_zero.mp hm
      exact admits_zero
    | succ limit =>
      refine admits_accept_true.bind_token hsep fun k hk => ?_
      rw [← List.append_nil ls]
      refine (ha.of_le (hk.le.trans hn)).bind ?_ (.nil (List.subset_cons_self separator stops))
      exact (admits_others_nil (Nat.le_of_lt_succ (hk.trans_le hm))).map
  | more ha _ ih =>
    cases limit with
    | zero =>
      obtain rfl := Nat.le_zero.mp hm
      exact admits_zero
    | succ limit =>
      refine admits_accept_true.bind_token hsep fun k hk => ?_
      exact (ha.of_le (hk.le.trans hn)).bind
        (ih (Nat.le_of_lt_succ (hk.trans_le hm)) (hk.le.trans hn)).map (.token hstops)

theorem admits_separated {as : List α} {ls : List Lexeme} (hsep : separator ∈ Token.spelled)
    (hstops : ∀ u ∈ stops, separator.Apart u)
    (h : Separated separator (fun a ls => Admits n item a ls stops) as ls) :
    Admits n (separated (accept standard separator) item) as ls (separator :: stops) := by
  unfold separated
  cases h with
  | @one a ls ha =>
    rw [← List.append_nil ls]
    refine ha.bind (.get fun c => ?_) (.nil (List.subset_cons_self separator stops))
    exact (admits_others_nil (min_le_right _ _)).map
  | more ha hs =>
    exact ha.bind (.get fun c =>
      (admits_others hsep hstops hs (min_le_right _ _) (min_le_left _ _)).map) (.token hstops)

end Reader

theorem Separated.mono {α : Type} {separator : Token} {shape shape' : α → List Lexeme → Prop}
    (hs : ∀ a ls, shape a ls → shape' a ls) {as : List α} {ls : List Lexeme}
    (h : Separated separator shape as ls) : Separated separator shape' as ls := by
  induction h with
  | one h => exact .one (hs _ _ h)
  | more h _ ih => exact .more (hs _ _ h) ih

/-- No list is read as a list of no items, which is what a missing list stands for. -/
theorem admits_listed {α : Type} {n : Nat} {sign : Token} {item : Reader α}
    {shape : α → List Lexeme → Prop} {stops : List Token}
    (hstops : ∀ u ∈ stops, Token.comma.Apart u)
    (hitem : ∀ a ls, shape a ls → Admits n item a ls stops) {as : List α} {ls : List Lexeme}
    (h : Listed sign shape as ls) :
    ∃ found, found.getD [] = as ∧
      Admits n (optional (accept standard sign) (separated (accept standard .comma) item)) found ls
        (sign :: .comma :: stops) := by
  cases h with
  | none => exact ⟨none, rfl, (admits_optional_none admits_accept_false).mono (by simp)⟩
  | some h =>
    have hs := admits_separated (n := n) (by decide) hstops (h.mono hitem)
    exact ⟨some as, rfl,
      (admits_optional_some admits_accept_true hs).mono (List.subset_cons_self _ _)⟩

theorem BaseType.admits_take? {n : Nat} (base : BaseType) :
    Admits n (take? standard token all) (some base) [.token base.token] [] :=
  admits_take?_some (by cases base <;> decide) (by cases base <;> decide)

theorem BaseType.admits_read {n : Nat} (base : BaseType) :
    Admits n (read standard) base [.token base.token] [] :=
  admits_take (by cases base <;> decide) (by cases base <;> decide)

def Ascription.tokens : List Token := .mutableWord :: BaseType.all.map BaseType.token

theorem Ascription.admits_read? {n : Nat} {ascription : Option Ascription} {ls : List Lexeme}
    (h : Perhaps Ascription.Written ascription ls) :
    Admits n (Ascription.read? standard) ascription ls Ascription.tokens := by
  unfold Ascription.read?
  cases h with
  | none =>
    refine admits_accept_false.bind (admits_take?_none.map.mono ?_) (.nil ?_)
    · exact List.subset_cons_self _ _
    · simp [Ascription.tokens]
  | some h =>
    cases h with
    | @fixed base =>
      refine admits_accept_false.bind ((base.admits_take?).map.mono (by simp)) (.token ?_)
      cases base <;> decide
    | @mutable base =>
      exact admits_accept_true.bind ((base.admits_read).map.mono (by simp)) .none

theorem admits_closeBlock {n : Nat} {closing : Token} :
    Admits n (closeBlock standard closing) () [.token closing] [] :=
  admits_accept_true.bind .pure .none

namespace Opening

theorem mem_all (o : Opening) : o ∈ all := by
  cases o with
  | change kind => cases kind <;> decide
  | _ => decide

theorem token_mem_spelled (o : Opening) : o.token ∈ Token.spelled := by
  cases o with
  | change kind => cases kind <;> decide
  | _ => decide

theorem apart (o : Opening) : ∀ p ∈ all, p ≠ o → o.token.Apart p.token := by
  cases o with
  | change kind => cases kind <;> decide
  | _ => decide

end Opening

namespace Statement

variable {n : Nat} {body : Reader (List Statement)}

/-- The tokens that go on with a statement. -/
def continuations : List Token :=
  BinaryOperator.tokens ++ [.comma, .withArg, .thenPutResultInto, .equalTo, .initializedTo] ++
    Ascription.tokens

/-- The tokens that go on with a block or with its last statement. -/
def blockTokens : List Token := continuations ++ Opening.all.map Opening.token

theorem operators_subset : BinaryOperator.tokens ⊆ continuations := by decide

theorem continuations_subset : continuations ⊆ blockTokens := List.subset_append_left _ _

theorem Written.opening {s : Statement} {ls : List Lexeme} (h : s.Written ls) :
    ∃ o tail, ls = .token (Opening.token o) :: tail := by
  cases h with
  | declare => exact ⟨.declare, _, rfl⟩
  | @change kind => exact ⟨.change kind, _, rfl⟩
  | print => exact ⟨.print, _, rfl⟩
  | conditional => exact ⟨.conditional, _, rfl⟩
  | conditionalOtherwise => exact ⟨.conditional, _, rfl⟩
  | whileLoop => exact ⟨.whileLoop, _, rfl⟩
  | forLoop => exact ⟨.forLoop, _, rfl⟩
  | call => exact ⟨.call, _, rfl⟩
  | giveBack => exact ⟨.giveBack, _, rfl⟩

theorem opening_apart (o : Opening) : ∀ u ∈ continuations, o.token.Apart u := by
  cases o with
  | change kind => cases kind <;> decide
  | _ => decide

theorem WrittenAll.leads {ss : List Statement} {ls : List Lexeme} (h : WrittenAll ss ls) :
    Leads ls blockTokens continuations := by
  cases h with
  | nil => exact .nil continuations_subset
  | cons h _ =>
    obtain ⟨o, tail, rfl⟩ := h.opening
    exact .token (opening_apart o)

theorem admits_initial {value : Option Expression} {vs : List Lexeme}
    (h : Perhaps Expression.Initial value vs) :
    Admits n (optional (return (← take? standard id [.equalTo, .initializedTo]).isSome)
      (Expression.read standard)) value vs continuations := by
  cases h with
  | none => exact (admits_optional_none admits_take?_none.map).mono (by decide)
  | some h =>
    have hsign (t : Token) (ht : t ∈ [Token.equalTo, .initializedTo]) :
        Admits n (do return (← take? standard id [.equalTo, .initializedTo]).isSome : Reader Bool)
          true [.token t] [] := by
      have hsome : Admits n (take? standard id [Token.equalTo, .initializedTo]) (some t)
          [.token t] [] :=
        admits_take?_some ht (by revert t; decide)
      exact hsome.map
    cases h with
    | equalTo h =>
      exact (admits_optional_some (hsign .equalTo (by decide)) (Expression.admits_read h)).mono
        operators_subset
    | initializedTo h =>
      exact (admits_optional_some (hsign .initializedTo (by decide))
        (Expression.admits_read h)).mono operators_subset

theorem leads_initial {value : Option Expression} {vs : List Lexeme}
    (h : Perhaps Expression.Initial value vs) : Leads vs continuations Ascription.tokens := by
  cases h with
  | none => exact .nil (by decide)
  | some h => cases h <;> exact .token (by decide)

theorem admits_readDeclaration {name : String} {ascription : Option Ascription}
    {value : Option Expression} {as vs : List Lexeme}
    (ha : Perhaps Ascription.Written ascription as) (hv : Perhaps Expression.Initial value vs)
    (h : ascription ≠ none ∨ value ≠ none) :
    Admits n (readDeclaration standard) (.declare name ascription value)
      (.word name :: .token .toBe :: (as ++ vs)) continuations := by
  unfold readDeclaration
  refine .ahead fun start => ?_
  refine admits_name.bind (admits_expect.bind ((Ascription.admits_read? ha).bind ?_
    (leads_initial hv)) .none) .none
  rw [← List.append_nil vs]
  refine (admits_initial hv).bind ?_ (.nil (List.Subset.refl _))
  rw [if_neg (by cases ascription <;> cases value <;> simp_all)]
  exact .pure

theorem admits_result {result : Option String} {rs : List Lexeme}
    (h : Perhaps ResultTarget result rs) :
    Admits n (optional (accept standard .thenPutResultInto) (Reader.name standard)) result rs
      [.thenPutResultInto] := by
  cases h with
  | none => exact admits_optional_none admits_accept_false
  | some h =>
    cases h
    exact (admits_optional_some admits_accept_true admits_name).mono (List.nil_subset _)

theorem leads_result {result : Option String} {rs : List Lexeme}
    (h : Perhaps ResultTarget result rs) :
    Leads rs continuations (.withArg :: .comma :: BinaryOperator.tokens) := by
  cases h with
  | none => exact .nil (by decide)
  | some h =>
    cases h
    exact .token (by decide)

theorem admits_readCall {function : String} {arguments : List Expression}
    {result : Option String} {as rs : List Lexeme}
    (ha : Listed .withArg Expression.Stated arguments as) (hr : Perhaps ResultTarget result rs) :
    Admits n (readCall standard) (.call function arguments result)
      (.word function :: (as ++ rs)) continuations := by
  unfold readCall
  obtain ⟨found, rfl, hfound⟩ := admits_listed (n := n) (by decide)
    (fun _ _ => Expression.admits_read) ha
  refine admits_name.bind (hfound.bind ?_ (leads_result hr)) .none
  exact (admits_result hr).map.mono (by decide)

theorem admits_readChange {kind : Change} {target : String} {value : Expression}
    {vs : List Lexeme} (h : value.Stated vs) :
    Admits n (readChange standard kind) (.change kind target value)
      (.word target :: .token kind.connector :: vs) continuations :=
  admits_name.bind (admits_expect.bind ((Expression.admits_read h).map.mono operators_subset) .none)
    .none

theorem admits_readBranch {condition : Expression} {statements : List Statement}
    {cs ss : List Lexeme} (hc : condition.Stated cs)
    (hs : Admits n body statements ss blockTokens) :
    Admits n (readBranch standard body) ⟨condition, statements⟩ (cs ++ .token .doWord :: ss)
      blockTokens :=
  (Expression.admits_read hc).bind (admits_expect.bind hs.map .none) (.token (by decide))

theorem admits_readConditional {branches : List Branch} {bs : List Lexeme}
    (hb : Separated .butIf (fun b ls => Admits n (readBranch standard body) b ls blockTokens)
      branches bs) :
    Admits n (readConditional standard body) (.conditional branches none)
      (bs ++ [.token .endOfIf]) [] :=
  (admits_separated (by decide) (by decide) hb).bind
    ((admits_optional_none admits_accept_false).bind admits_closeBlock.map (.token (by decide)))
    (.token (by decide))

theorem admits_readConditional_otherwise {branches : List Branch} {statements : List Statement}
    {bs ss : List Lexeme}
    (hb : Separated .butIf (fun b ls => Admits n (readBranch standard body) b ls blockTokens)
      branches bs)
    (hs : Admits n body statements ss blockTokens) :
    Admits n (readConditional standard body) (.conditional branches (some statements))
      (bs ++ .token .otherwise :: .token .doWord :: (ss ++ [.token .endOfIf])) [] :=
  (admits_separated (by decide) (by decide) hb).bind
    ((admits_optional_some admits_accept_true (admits_expect.bind hs .none)).bind
      admits_closeBlock.map (.token (by decide)))
    (.token (by decide))

theorem admits_readWhileLoop {condition : Expression} {statements : List Statement}
    {cs ss : List Lexeme} (hc : condition.Stated cs)
    (hs : Admits n body statements ss blockTokens) :
    Admits n (readWhileLoop standard body) (.whileLoop condition statements)
      (cs ++ .token .doWord :: (ss ++ [.token .endOfWhile])) [] := by
  rw [← List.cons_append, ← List.append_assoc]
  exact (admits_readBranch hc hs).bind admits_closeBlock.map (.token (by decide))

theorem admits_readForLoop {iterator : String} {lower upper : Expression}
    {statements : List Statement} {ls us ss : List Lexeme} (hl : lower.Stated ls)
    (hu : upper.Stated us) (hs : Admits n body statements ss blockTokens) :
    Admits n (readForLoop standard body) (.forLoop iterator lower upper statements)
      (.word iterator :: .token .fromWord :: (ls ++ .token .toWord ::
        (us ++ .token .doWord :: (ss ++ [.token .endOfFor])))) [] := by
  unfold readForLoop
  refine admits_name.bind (admits_expect.bind ?_ .none) .none
  refine (Expression.admits_read hl).bind (admits_expect.bind ?_ .none) (.token (by decide))
  refine (Expression.admits_read hu).bind (admits_expect.bind ?_ .none) (.token (by decide))
  exact hs.bind admits_closeBlock.map (.token (by decide))

theorem admits_readBlock_cons {o : Opening} {s : Statement} {ss : List Statement}
    {ls ms : List Lexeme} {limit : Nat}
    (h : ∀ m < n,
      Admits m (Statement.read standard (readBlock standard limit) o) s ls continuations)
    (hs : ∀ m < n, Admits m (readBlock standard limit) ss ms blockTokens)
    (hl : Leads ms blockTokens continuations) :
    Admits n (readBlock standard (limit + 1)) (s :: ss) (.token o.token :: (ls ++ ms))
      blockTokens := by
  have ho : Admits n (take? standard Opening.token Opening.all) (some o) [.token o.token] [] :=
    admits_take?_some o.mem_all o.apart
  exact ho.bind_token o.token_mem_spelled fun m hm => (h m hm).bind (hs m hm).map hl

end Statement

end Wordy
