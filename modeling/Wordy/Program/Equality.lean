import Wordy.Program.Basic

/-! Equality of programs is decidable. Statements hold lists of statements, so that their equality,
that of lists of them and that of lists of branches are decided together. -/

namespace Wordy

mutual

def Statement.decEq : (s t : Statement) → Decidable (s = t)
  | .declare n a v, .declare m b w =>
    decidable_of_iff (n = m ∧ a = b ∧ v = w) (by simp)
  | .change c n v, .change d m w => decidable_of_iff (c = d ∧ n = m ∧ v = w) (by simp)
  | .print v, .print w => decidable_of_iff (v = w) (by simp)
  | .conditional bs none, .conditional cs none =>
    have := Branch.decEqList bs cs
    decidable_of_iff (bs = cs) (by simp)
  | .conditional bs (some o), .conditional cs (some p) =>
    have := Branch.decEqList bs cs
    have := Statement.decEqList o p
    decidable_of_iff (bs = cs ∧ o = p) (by simp)
  | .whileLoop c b, .whileLoop d e =>
    have := Statement.decEqList b e
    decidable_of_iff (c = d ∧ b = e) (by simp)
  | .forLoop i l u b, .forLoop j m v e =>
    have := Statement.decEqList b e
    decidable_of_iff (i = j ∧ l = m ∧ u = v ∧ b = e) (by simp)
  | .call f as r, .call g bs q => decidable_of_iff (f = g ∧ as = bs ∧ r = q) (by simp)
  | .giveBack v, .giveBack w => decidable_of_iff (v = w) (by simp)
  | .conditional _ none, .conditional _ (some _)
  | .conditional _ (some _), .conditional _ none => .isFalse (by simp)
  | .declare .., .change .. | .declare .., .print _ | .declare .., .conditional ..
  | .declare .., .whileLoop .. | .declare .., .forLoop .. | .declare .., .call ..
  | .declare .., .giveBack _ => .isFalse nofun
  | .change .., .declare .. | .change .., .print _ | .change .., .conditional ..
  | .change .., .whileLoop .. | .change .., .forLoop .. | .change .., .call ..
  | .change .., .giveBack _ => .isFalse nofun
  | .print _, .declare .. | .print _, .change .. | .print _, .conditional ..
  | .print _, .whileLoop .. | .print _, .forLoop .. | .print _, .call ..
  | .print _, .giveBack _ => .isFalse nofun
  | .conditional .., .declare .. | .conditional .., .change .. | .conditional .., .print _
  | .conditional .., .whileLoop .. | .conditional .., .forLoop .. | .conditional .., .call ..
  | .conditional .., .giveBack _ => .isFalse nofun
  | .whileLoop .., .declare .. | .whileLoop .., .change .. | .whileLoop .., .print _
  | .whileLoop .., .conditional .. | .whileLoop .., .forLoop .. | .whileLoop .., .call ..
  | .whileLoop .., .giveBack _ => .isFalse nofun
  | .forLoop .., .declare .. | .forLoop .., .change .. | .forLoop .., .print _
  | .forLoop .., .conditional .. | .forLoop .., .whileLoop .. | .forLoop .., .call ..
  | .forLoop .., .giveBack _ => .isFalse nofun
  | .call .., .declare .. | .call .., .change .. | .call .., .print _
  | .call .., .conditional .. | .call .., .whileLoop .. | .call .., .forLoop ..
  | .call .., .giveBack _ => .isFalse nofun
  | .giveBack _, .declare .. | .giveBack _, .change .. | .giveBack _, .print _
  | .giveBack _, .conditional .. | .giveBack _, .whileLoop .. | .giveBack _, .forLoop ..
  | .giveBack _, .call .. => .isFalse nofun

def Statement.decEqList : (s t : List Statement) → Decidable (s = t)
  | [], [] => .isTrue rfl
  | [], _ :: _ | _ :: _, [] => .isFalse nofun
  | s :: ss, t :: ts =>
    have := Statement.decEq s t
    have := Statement.decEqList ss ts
    decidable_of_iff (s = t ∧ ss = ts) (by simp)

def Branch.decEqList : (s t : List Branch) → Decidable (s = t)
  | [], [] => .isTrue rfl
  | [], _ :: _ | _ :: _, [] => .isFalse nofun
  | ⟨c, b⟩ :: bs, ⟨d, e⟩ :: ds =>
    have := Statement.decEqList b e
    have := Branch.decEqList bs ds
    decidable_of_iff ((c = d ∧ b = e) ∧ bs = ds) (by simp)

end

instance : DecidableEq Statement := Statement.decEq

deriving instance DecidableEq for Function, Item, Program

end Wordy
