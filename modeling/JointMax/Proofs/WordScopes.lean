import Mathlib
import JointMax.Proofs.Radices
import JointMax.Scope.Words

/-
  The walks that number joint values in machine words. A walk
  carries the index of the digits it has met and the weight
  of the next one. The index stays below the weight, and as
  long as the number of joint values is a word, so is every
  weight. Each walk then answers as the one without words.

  Main declarations:
    * `MixedRadix.carry?_eq`
    * `Axis.encodeWord?_eq`, `Axis.selectWord?_eq`,
      `Axis.indexWord?_eq` and `Axis.locateWord?_eq`
    * `Scope.countWord?_eq` and its like
    * `Scope.sixfold` and `Scope.vast`
-/

------------------------------------------------------------
-- One Digit
------------------------------------------------------------

namespace JointMax

namespace MixedRadix

/- Where there is room for the next weight, a digit fits. -/
theorem carry?_eq
    {build : Build}
    {index weight digit radix rest : Nat}
    (hDigit : digit < radix)
    (hIndex : index < weight)
    (hRest : 0 < rest)
    (hBound : weight * (radix * rest) < wordLimit) :
    carry? build.fit index weight digit radix =
        some (index + digit * weight, weight * radix) ∧
      index + digit * weight < weight * radix := by
  have hBelow := add_mul_lt hDigit hIndex
  have hHeavier : weight * radix < wordLimit := by
    rw [← Nat.mul_assoc] at hBound
    exact lt_of_le_of_lt
      (Nat.le_mul_of_pos_right _ hRest) hBound
  refine ⟨?_, hBelow⟩
  simp only [carry?, Option.bind_eq_bind]
  rw [Build.fit_eq (by omega), Option.bind_some,
    Build.fit_eq (by omega), Option.bind_some,
    Build.fit_eq hHeavier, Option.bind_some]
  rfl

/- A digit and the digits after it, counted from the first. -/
theorem map_carry
    (index weight digit radix : Nat)
    (answer : Except Fault Nat) :
    (answer.map fun high =>
        index + digit * weight + weight * radix * high) =
      (do
        let high ← answer
        return digit + radix * high :
          Except Fault Nat).map
        fun high => index + weight * high := by
  cases answer with
  | error fault => rfl
  | ok high =>
      have hSum :
          index + digit * weight + weight * radix * high =
            index + weight * (digit + radix * high) := by
        ring
      simp only [Except.map, hSum]
      rfl

theorem multiplyUp?_word_eq
    {build : Build}
    {radices : List Nat}
    {done : Nat}
    (hPos : ∀ radix ∈ radices, 0 < radix)
    (hBound : done * count radices < wordLimit) :
    multiplyUp? build.fit done radices =
      some (done * count radices) := by
  apply multiplyUp?_eq _ hPos le_rfl
  intro n hBelow
  exact Build.fit_eq (lt_of_le_of_lt hBelow hBound)

end MixedRadix

end JointMax

------------------------------------------------------------
-- Walks
------------------------------------------------------------

namespace JointMax

namespace Axis

variable {build : Build} {axes : List Axis}
variable {vars : List VarId} {digits : List Nat}
variable {index weight : Nat}

theorem encodeWord?_eq
    (hIndex : index < weight)
    (hBound :
      weight * MixedRadix.count (axes.map Axis.size) <
        wordLimit) :
    encodeWord? build index weight axes digits =
      some ((encode? axes digits).map fun high =>
        index + weight * high) := by
  induction axes generalizing digits index weight with
  | nil => cases digits <;> rfl
  | cons axis axes ih =>
      cases digits with
      | nil => rfl
      | cons digit digits =>
          simp only [encodeWord?, encode?]
          split
          · rename_i hDigit
            rcases MixedRadix.carry?_eq hDigit hIndex
                (count_sizes_pos axes) hBound with
              ⟨hCarry, hBelow⟩
            rw [hCarry]
            simp only [Option.bind_eq_bind, Option.bind_some]
            rw [ih hBelow (by rwa [Nat.mul_assoc]),
              MixedRadix.map_carry]
          · rfl

theorem selectWord?_eq
    (hIndex : index < weight)
    (hBound :
      weight * MixedRadix.count (axes.map Axis.size) <
        wordLimit) :
    selectWord? build index weight axes vars digits =
      some ((select? axes vars digits).map fun high =>
        index + weight * high) := by
  induction vars generalizing axes digits index weight with
  | nil => cases axes <;> rfl
  | cons var vars ih =>
      cases axes with
      | nil => rfl
      | cons axis axes =>
          cases digits with
          | nil => rfl
          | cons digit digits =>
              simp only [selectWord?, select?]
              split
              · rfl
              · split
                · split
                  · rename_i hDigit
                    rcases MixedRadix.carry?_eq hDigit hIndex
                        (count_sizes_pos axes) hBound with
                      ⟨hCarry, hBelow⟩
                    rw [hCarry]
                    simp only [Option.bind_eq_bind,
                      Option.bind_some]
                    rw [ih hBelow (by rwa [Nat.mul_assoc]),
                      MixedRadix.map_carry]
                  · rfl
                · exact ih hIndex hBound

theorem indexWord?_eq
    {choice : VarId → Option Nat}
    (hIndex : index < weight)
    (hBound :
      weight * MixedRadix.count (axes.map Axis.size) <
        wordLimit) :
    indexWord? build choice index weight axes =
      some ((indexOf? choice axes).map fun high =>
        index + weight * high) := by
  induction axes generalizing index weight with
  | nil => rfl
  | cons axis axes ih =>
      simp only [indexWord?, indexOf?]
      cases choice axis.var with
      | none => rfl
      | some digit =>
          dsimp only
          split
          · rename_i hDigit
            rcases MixedRadix.carry?_eq hDigit hIndex
                (count_sizes_pos axes) hBound with
              ⟨hCarry, hBelow⟩
            rw [hCarry]
            simp only [Option.bind_eq_bind, Option.bind_some]
            rw [ih hBelow (by rwa [Nat.mul_assoc]),
              MixedRadix.map_carry]
          · rfl

/- Where nothing is out of range or missing, asserting is idle. -/
theorem locateWord?_eq
    {found : Nat}
    (hSelect : select? axes vars digits = .ok found)
    (hIndex : index < weight)
    (hBound :
      weight * MixedRadix.count (axes.map Axis.size) <
        wordLimit) :
    locateWord? build index weight axes vars digits =
      some (index + weight * found) := by
  induction vars generalizing
      axes digits found index weight with
  | nil =>
      cases axes with
      | nil =>
          cases hSelect
          rfl
      | cons axis axes => cases hSelect
  | cons var vars ih =>
      cases axes with
      | nil =>
          cases hSelect
          rfl
      | cons axis axes =>
          cases digits with
          | nil => cases hSelect
          | cons digit digits =>
              simp only [select?] at hSelect
              simp only [locateWord?]
              split at hSelect
              · cases hSelect
              · split at hSelect
                · rename_i hVar
                  split at hSelect
                  · rename_i hDigit
                    rcases exists_of_bind_eq_ok hSelect with
                      ⟨high, hHigh, hOk⟩
                    cases hOk
                    rcases MixedRadix.carry?_eq hDigit hIndex
                        (count_sizes_pos axes) hBound with
                      ⟨hCarry, hBelow⟩
                    rw [if_pos hVar, decide_eq_true hDigit,
                      Build.holds_true, hCarry]
                    simp only [Option.bind_eq_bind,
                      Option.bind_some]
                    rw [ih hHigh hBelow
                      (by rwa [Nat.mul_assoc])]
                    congr 1
                    ring
                  · cases hSelect
                · rename_i hVar
                  rw [if_neg hVar]
                  exact ih hSelect hIndex hBound

end Axis

end JointMax

------------------------------------------------------------
-- Scopes
------------------------------------------------------------

namespace JointMax

namespace Scope

variable {build : Build} {scope : Scope}

theorem countWord?_eq (hWords : scope.count < wordLimit) :
    scope.countWord? build = some scope.count := by
  have hProduct :=
    @MixedRadix.multiplyUp?_word_eq build scope.sizes 1
      (by simpa [sizes] using fun axis _ => axis.size_pos)
      (by rwa [Nat.one_mul])
  rwa [Nat.one_mul] at hProduct

/- The walks start at the first digit, of weight one. -/
theorem map_start (answer : Except Fault Nat) :
    (answer.map fun high => 0 + 1 * high) = answer := by
  cases answer with
  | error fault => rfl
  | ok high => rw [Except.map, Nat.one_mul, Nat.zero_add]

theorem encodeWord?_eq
    (hWords : scope.count < wordLimit)
    (digits : List Nat) :
    scope.encodeWord? build digits =
      some (scope.encode? digits) := by
  unfold encodeWord? encode?
  split
  · rw [Axis.encodeWord?_eq Nat.one_pos
      (by rwa [Nat.one_mul]), map_start]
  · rfl

theorem decodeWord?_eq
    (hWords : scope.count < wordLimit)
    (index : Nat) :
    scope.decodeWord? build index =
      some (scope.decode? index) :=
  MixedRadix.digitsOf?_of_multiplyUp?
    (countWord?_eq hWords) index

theorem selectWord?_eq
    (hWords : scope.count < wordLimit)
    (vars : List VarId)
    (digits : List Nat) :
    scope.selectWord? build vars digits =
      some (scope.select? vars digits) := by
  unfold selectWord? select?
  split
  · rw [Axis.selectWord?_eq Nat.one_pos
      (by rwa [Nat.one_mul]), map_start]
  · rfl

theorem indexWord?_eq
    (hWords : scope.count < wordLimit)
    (assignment : Assignment) :
    scope.indexWord? build assignment =
      some (scope.indexOf? assignment) := by
  unfold indexWord? indexOf?
  rw [Axis.indexWord?_eq Nat.one_pos
    (by rwa [Nat.one_mul]), map_start]

theorem locateWord?_eq
    {vars : List VarId}
    {digits : List Nat}
    {index : Nat}
    (hWords : scope.count < wordLimit)
    (hSelect : scope.select? vars digits = .ok index) :
    scope.locateWord? build vars digits = some index := by
  unfold select? at hSelect
  split at hSelect
  · rename_i hLength
    rw [locateWord?, decide_eq_true hLength,
      Build.holds_true, Option.bind_eq_bind,
      Option.bind_some,
      Axis.locateWord?_eq hSelect Nat.one_pos
        (by rwa [Nat.one_mul]),
      Nat.one_mul, Nat.zero_add]
  · cases hSelect

end Scope

end JointMax

------------------------------------------------------------
-- Few and Many Joint Values
------------------------------------------------------------

namespace JointMax

namespace Scope

/- Two variables, of six joint values. -/
def sixfold : Scope :=
  ⟨[⟨2, 3, Nat.zero_lt_succ _⟩, ⟨5, 2, Nat.two_pos⟩],
    by decide⟩

/- Four variables of this size multiply to the word limit. -/
theorem quarter_pos : 0 < 65536 :=
  Nat.zero_lt_succ _

/-
  Five variables, of which the first four have just as many
  joint values as there are words.
-/
def vast : Scope where
  axes :=
    [⟨1, 65536, quarter_pos⟩, ⟨2, 65536, quarter_pos⟩,
      ⟨3, 65536, quarter_pos⟩, ⟨4, 65536, quarter_pos⟩,
      ⟨5, 3, Nat.zero_lt_succ _⟩]
  sorted := by decide

end Scope

end JointMax
