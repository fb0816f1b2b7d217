import Mathlib
import Wordy.Proofs.PlainPrograms

/-! Expressions and lists of them, told from their pieces. The pieces of a plain expression are
followed in a script by a semicolon, a comma or a parenthesis, none of which goes on with it; so
where the pieces of two expressions and what follows them agree, both parts do. -/

namespace Wordy

open Script

theorem PlainName.ne_of_isReserved {name : String} (h : PlainName name) {w : List Char}
    (hw : Phrasebook.standard.isReserved w = true) : name.toList ≠ w := by
  rintro rfl
  simp [h.not_reserved] at hw

theorem PlainName.not_isNumeral {name : String} (h : PlainName name) :
    ¬Atom.IsNumeral name.toList := by
  rw [← Atom.isNumber_iff, Atom.isNumber_eq_false h.isVariable]
  exact Bool.false_ne_true

namespace Atom

theorem piece_ne_mark (a : Atom) (c : Char) : a.piece ≠ .mark c := by
  rcases a with _ | _ | (_ | _) | _ <;> simp [piece]

theorem piece_number_ne_truth {digits : String} (h : IsNumeral digits.toList) (value : Bool) :
    (number digits).piece ≠ (truth value).piece := by
  intro he
  rw [← isNumber_iff] at h
  cases value
  · rw [Piece.word.inj he] at h
    exact absurd h (by decide)
  · rw [Piece.word.inj he] at h
    exact absurd h (by decide)

theorem piece_reference_ne_truth {name : String} (h : PlainName name) (value : Bool) :
    (reference name).piece ≠ (truth value).piece := by
  intro he
  cases value
  · exact h.ne_of_isReserved (by decide) (Piece.word.inj he)
  · exact h.ne_of_isReserved (by decide) (Piece.word.inj he)

theorem piece_number_ne_reference {digits name : String} (h : IsNumeral digits.toList)
    (hn : PlainName name) : (number digits).piece ≠ (reference name).piece :=
  fun he => hn.not_isNumeral (Piece.word.inj he ▸ h)

theorem Plain.piece_inj {a b : Atom} (ha : a.Plain) (hb : b.Plain) (h : a.piece = b.piece) :
    a = b := by
  cases a with
  | number digits =>
    cases b with
    | number digits' => rw [String.toList_inj.mp (Piece.word.inj h)]
    | text => cases h
    | truth value => exact absurd h (piece_number_ne_truth ha value)
    | reference name => exact absurd h (piece_number_ne_reference ha hb)
  | text contents =>
    cases b with
    | text contents' =>
      rw [String.toList_inj.mp (codeUnits_injective (Piece.literal.inj h))]
    | truth value => cases value <;> cases h
    | _ => cases h
  | truth value =>
    cases b with
    | number digits => exact absurd h.symm (piece_number_ne_truth hb value)
    | text => cases value <;> cases h
    | truth value' => cases value <;> cases value' <;> simp [piece] at h ⊢
    | reference name => exact absurd h.symm (piece_reference_ne_truth hb value)
  | reference name =>
    cases b with
    | number digits => exact absurd h.symm (piece_number_ne_reference hb ha)
    | text => cases h
    | truth value => exact absurd h (piece_reference_ne_truth ha value)
    | reference name' => rw [String.toList_inj.mp (Piece.word.inj h)]

end Atom

namespace Script

/-- No expression goes on here. -/
def Stop (ps : List Piece) : Prop :=
  ∀ x ∈ ps.head?, x = .mark ';' ∨ x = .mark ',' ∨ x = .mark ')'

variable {ps qs : List Piece}

theorem stop_semicolon : Stop (.mark ';' :: ps) := by simp [Stop]

theorem stop_comma : Stop (.mark ',' :: ps) := by simp [Stop]

theorem stop_parenthesis : Stop (.mark ')' :: ps) := by simp [Stop]

/-- The pieces of plain values can be told from what follows them. -/
def Telling {α : Type} (P : α → Prop) (f : α → List Piece) : Prop :=
  ∀ ⦃a b ps qs⦄, P a → P b → Stop ps → Stop qs → f a ++ ps = f b ++ qs → a = b ∧ ps = qs

section

variable {α : Type} {P : α → Prop} {f : α → List Piece} {as bs : List α}

theorem stop_laterParts (parts : List (List Piece)) (ps : List Piece) :
    Stop (parts.flatMap (.mark ',' :: ·) ++ .mark ')' :: ps) := by
  cases parts with
  | nil => exact stop_parenthesis
  | cons part parts => exact stop_comma

theorem Telling.laterParts (h : Telling P f) (has : ∀ a ∈ as, P a) (hbs : ∀ b ∈ bs, P b)
    (he : (as.map f).flatMap (.mark ',' :: ·) ++ .mark ')' :: ps =
      (bs.map f).flatMap (.mark ',' :: ·) ++ .mark ')' :: qs) : as = bs ∧ ps = qs := by
  induction as generalizing bs with
  | nil =>
    cases bs with
    | nil => simpa using he
    | cons b bs => simp at he
  | cons a as ih =>
    cases bs with
    | nil => simp at he
    | cons b bs =>
      obtain ⟨ha, htail⟩ := List.forall_mem_cons.mp has
      obtain ⟨hb, htail'⟩ := List.forall_mem_cons.mp hbs
      simp only [List.map_cons, List.flatMap_cons, List.cons_append, List.append_assoc,
        List.cons.injEq, true_and] at he
      obtain ⟨rfl, hrest⟩ := h ha hb (stop_laterParts _ _) (stop_laterParts _ _) he
      obtain ⟨rfl, rfl⟩ := ih htail htail' hrest
      exact ⟨rfl, rfl⟩

/-- So can lists of such values, up to the closing parenthesis. -/
theorem Telling.commaSeparated (h : Telling P f)
    (hne : ∀ a, P a → ∀ ps qs, f a ++ ps ≠ .mark ')' :: qs)
    (has : ∀ a ∈ as, P a) (hbs : ∀ b ∈ bs, P b)
    (he : commaSeparated (as.map f) ++ .mark ')' :: ps =
      commaSeparated (bs.map f) ++ .mark ')' :: qs) : as = bs ∧ ps = qs := by
  -- The first part has no comma before it, and so is read apart from the others.
  cases as with
  | nil =>
    cases bs with
    | nil => simpa [Script.commaSeparated] using he
    | cons b bs =>
      simp only [Script.commaSeparated, List.map_cons, List.map_nil, List.append_assoc] at he
      exact absurd he.symm (hne b (hbs b List.mem_cons_self) _ _)
  | cons a as =>
    obtain ⟨ha, htail⟩ := List.forall_mem_cons.mp has
    cases bs with
    | nil =>
      simp only [Script.commaSeparated, List.map_cons, List.map_nil, List.append_assoc] at he
      exact absurd he (hne a ha _ _)
    | cons b bs =>
      obtain ⟨hb, htail'⟩ := List.forall_mem_cons.mp hbs
      simp only [Script.commaSeparated, List.map_cons, List.append_assoc] at he
      obtain ⟨rfl, hrest⟩ := h ha hb (stop_laterParts _ _) (stop_laterParts _ _) he
      obtain ⟨rfl, rfl⟩ := h.laterParts htail htail' hrest
      exact ⟨rfl, rfl⟩

end

end Script

namespace BinaryOperator

theorem not_stop (o : BinaryOperator) (ps : List Piece) : ¬Stop (o.pieces ++ ps) := by
  cases o <;> simp [Stop, pieces, symbol]

/-- An operator is told from its pieces, as no operand starts with an equals sign. -/
theorem pieces_inj {o o' : BinaryOperator} {ps qs : List Piece}
    (hps : ∀ rest, ps ≠ .mark '=' :: rest) (hqs : ∀ rest, qs ≠ .mark '=' :: rest)
    (h : o.pieces ++ ps = o'.pieces ++ qs) : o = o' ∧ ps = qs := by
  cases o <;> cases o' <;> simp [pieces, symbol] at h ⊢ <;> grind

end BinaryOperator

namespace Expression

theorem parenthesizedPieces_ne (e : Expression) (ps : List Piece) {c : Char} (hc : c ≠ '(')
    (rest : List Piece) :
    parenthesizedPieces e.isOperation e.pieces ++ ps ≠ .mark c :: rest := by
  cases e with
  | atom a => simp [isOperation, parenthesizedPieces, pieces, a.piece_ne_mark c]
  | _ => simp [isOperation, parenthesizedPieces, hc.symm]

/-- The parentheses tell an operand that is an operation from one that is an atom. -/
theorem parenthesizedPieces_inj {e f : Expression} {ps qs : List Piece}
    (he : ∀ ⦃ps qs⦄, Stop ps → Stop qs → e.pieces ++ ps = f.pieces ++ qs → e = f ∧ ps = qs)
    (hps : Stop ps) (hqs : Stop qs)
    (h : parenthesizedPieces e.isOperation e.pieces ++ ps =
      parenthesizedPieces f.isOperation f.pieces ++ qs) : e = f ∧ ps = qs := by
  have hatom {f : Expression} (hf : f.isOperation = false) (ps rest : List Piece) :
      f.pieces ++ ps ≠ .mark '(' :: rest := by
    cases f with
    | atom a => simp [pieces, a.piece_ne_mark]
    | _ => simp [isOperation] at hf
  cases hoe : e.isOperation <;> cases hof : f.isOperation <;>
    simp only [hoe, hof, parenthesizedPieces, if_true, Bool.false_eq_true, if_false,
      List.cons_append, List.append_assoc, List.cons.injEq, true_and, List.nil_append] at h
  · exact he hps hqs h
  · exact absurd h (hatom hoe _ _)
  · exact absurd h.symm (hatom hof _ _)
  · obtain ⟨hef, hrest⟩ := he stop_parenthesis stop_parenthesis h
    exact ⟨hef, by simpa using hrest⟩

/-- Induction on the chain: an atom at its end is followed by no operator, and an operand that is an
operation ends at the parenthesis that closes it. -/
theorem telling_pieces : Telling Expression.Plain pieces := by
  intro e f ps qs he hf hps hqs h
  induction e generalizing f ps qs with
  | atom a =>
    cases f with
    | atom b =>
      obtain ⟨hpiece, hrest⟩ := List.cons.inj h
      exact ⟨by rw [Atom.Plain.piece_inj he hf hpiece], hrest⟩
    | negation f => exact absurd (List.cons.inj h).1 (a.piece_ne_mark '!')
    | binary b o f =>
      simp only [pieces, List.cons_append, List.nil_append, List.append_assoc,
        List.cons.injEq] at h
      exact absurd (h.2 ▸ hps) (o.not_stop _)
  | negation e ih =>
    cases f with
    | atom b => exact absurd (List.cons.inj h).1.symm (b.piece_ne_mark '!')
    | negation f =>
      obtain ⟨hef, hrest⟩ := parenthesizedPieces_inj (f := f) (fun _ _ => ih he hf) hps hqs
        (List.cons.inj h).2
      exact ⟨by rw [hef], hrest⟩
    | binary b o f => exact absurd (List.cons.inj h).1.symm (b.piece_ne_mark '!')
  | binary a o e ih =>
    cases f with
    | atom b =>
      simp only [pieces, List.cons_append, List.nil_append, List.append_assoc,
        List.cons.injEq] at h
      exact absurd (h.2.symm ▸ hqs) (o.not_stop _)
    | negation f => exact absurd (List.cons.inj h).1 (a.piece_ne_mark '!')
    | binary b o' f =>
      simp only [pieces, List.cons_append, List.append_assoc, List.cons.injEq] at h
      obtain ⟨hpiece, hchain⟩ := h
      obtain ⟨rfl, hoperand⟩ := BinaryOperator.pieces_inj
        (parenthesizedPieces_ne e ps (by decide)) (parenthesizedPieces_ne f qs (by decide)) hchain
      obtain ⟨hef, hrest⟩ := parenthesizedPieces_inj (f := f) (fun _ _ => ih he.2 hf.2) hps hqs
        hoperand
      exact ⟨by rw [Atom.Plain.piece_inj he.1 hf.1 hpiece, hef], hrest⟩

theorem pieces_ne_parenthesis (e : Expression) (ps qs : List Piece) :
    e.pieces ++ ps ≠ .mark ')' :: qs := by
  cases e with
  | negation e => simp [pieces]
  | atom a => simp [pieces, a.piece_ne_mark]
  | binary a o e => simp [pieces, a.piece_ne_mark]

theorem pieces_ne_call (e : Expression) {ps : List Piece} (hps : Stop ps) (w : List Char)
    (qs : List Piece) : e.pieces ++ ps ≠ .word w :: .mark '(' :: qs := by
  cases e with
  | negation e => simp [pieces]
  | atom a =>
    intro h
    simp only [pieces, List.cons_append, List.nil_append, List.cons.injEq] at h
    simp [h.2, Stop] at hps
  | binary a o e => cases o <;> simp [pieces, BinaryOperator.pieces, BinaryOperator.symbol]

end Expression

end Wordy
