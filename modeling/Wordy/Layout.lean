/-! Output in indented lines. -/

namespace Wordy

/-- The text may hold line breaks of its own: a quotation is written as it stands. -/
structure Line where
  depth : Nat
  text : String
deriving DecidableEq, Repr

namespace Line

def deeper (line : Line) : Line := { line with depth := line.depth + 1 }

def layout (unit : String) (line : Line) : String :=
  String.join (List.replicate line.depth unit) ++ line.text ++ "\n"

end Line

def line (text : String) : Line := ⟨0, text⟩

def block (lines : List Line) : List Line := lines.map Line.deeper

def layout (unit : String) (lines : List Line) : String :=
  String.join (lines.map (Line.layout unit))

theorem toList_layout_cons (unit : String) (l : Line) (ls : List Line) :
    (layout unit (l :: ls)).toList =
      (String.join (List.replicate l.depth unit)).toList ++
        (l.text.toList ++ '\n' :: (layout unit ls).toList) := by
  simp [layout, Line.layout]

/-- A reader that passes over the unit makes nothing of the indentation. -/
theorem skip_indentation {β : Type} {unit : String} {read : List Char → β}
    (h : ∀ s, read (unit.toList ++ s) = read s) (depth : Nat) (s : List Char) :
    read ((String.join (List.replicate depth unit)).toList ++ s) = read s := by
  induction depth with
  | zero => simp
  | succ depth ih => simpa [List.replicate_succ, h] using ih

end Wordy
