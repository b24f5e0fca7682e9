import Mathlib.Data.List.Nodup
import Secd.Proofs.Fragments

namespace Secd

/-! # Names of blocks are unique

The name of an arm is the name of its block, a dot, a number and a tag. So every name of a
function's block starts with the name of the function and goes on, if at all, with a dot (`Under`).
Numbers are written in digits and tags are not digits, so the part after the dot tells position and
tag (`armName_under_unique`); two conditionals of a block stand at different positions. Hence the
arms of a function have different names (`Yields.nodup_names`), and so have the blocks of functions
with different names that hold no dot (`eq_of_under`).
-/

/-- A name that continues `base`, if at all, after a dot. -/
def Under (base name : String) : Prop :=
  ∃ rest : List Char, name.toList = base.toList ++ rest ∧ ∀ first ∈ rest.head?, first = '.'

/-- The two tags of arms. -/
def IsTag (tag : String) : Prop := tag = "t" ∨ tag = "f"

theorem toList_armName (block : String) (position : Nat) (tag : String) :
    (armName block position tag).toList =
      block.toList ++ '.' :: (Nat.toDigits 10 position ++ tag.toList) := by
  simp [armName, String.toList_append]

namespace Under

theorem refl (name : String) : Under name name := ⟨[], by simp⟩

theorem trans {first second third : String} (outer : Under first second)
    (inner : Under second third) : Under first third := by
  obtain ⟨outerRest, secondEq, outerDot⟩ := outer
  obtain ⟨innerRest, thirdEq, innerDot⟩ := inner
  refine ⟨outerRest ++ innerRest, by rw [thirdEq, secondEq, List.append_assoc], ?_⟩
  cases outerRest with
  | nil => exact innerDot
  | cons char rest => exact outerDot

end Under

theorem under_armName (block : String) (position : Nat) (tag : String) :
    Under block (armName block position tag) :=
  ⟨_, toList_armName block position tag, by simp⟩

theorem not_armName_under (block : String) (position : Nat) (tag : String) :
    ¬ Under (armName block position tag) block := by
  rintro ⟨rest, sameName, -⟩
  have lengths := congrArg List.length sameName
  rw [toList_armName] at lengths
  simp only [List.length_append, List.length_cons] at lengths
  omega

/-! ## Reading a name back -/

/-- A list splits in one way into a run of characters of a kind and a rest that does not start with
one of them. -/
theorem run_unique {kind : Char → Bool} {first second firstRest secondRest : List Char}
    (same : first ++ firstRest = second ++ secondRest) (firstKind : ∀ char ∈ first, kind char)
    (secondKind : ∀ char ∈ second, kind char) (firstEnd : ∀ char ∈ firstRest.head?, ¬ kind char)
    (secondEnd : ∀ char ∈ secondRest.head?, ¬ kind char) :
    first = second ∧ firstRest = secondRest := by
  have stop : ∀ rest : List Char, (∀ char ∈ rest.head?, ¬ kind char) →
      rest.takeWhile kind = [] := by
    intro rest ended
    cases rest with
    | nil => rfl
    | cons char rest => exact List.takeWhile_cons_of_neg (ended char rfl)
  have runs := congrArg (List.takeWhile kind) same
  rw [List.takeWhile_append_of_pos firstKind, List.takeWhile_append_of_pos secondKind,
    stop _ firstEnd, stop _ secondEnd, List.append_nil, List.append_nil] at runs
  subst runs
  exact ⟨rfl, List.append_cancel_left same⟩

theorem toDigits_injective {first second : Nat}
    (same : Nat.toDigits 10 first = Nat.toDigits 10 second) : first = second := by
  rw [← Nat.ofDigitChars_ten_toDigits (n := first), same, Nat.ofDigitChars_ten_toDigits]

/-- A name tells the outermost arm it belongs to: its position and its tag. -/
theorem armName_under_unique {block name : String} {position other : Nat} {tag otherTag : String}
    (isTag : IsTag tag) (isOtherTag : IsTag otherTag)
    (below : Under (armName block position tag) name)
    (otherBelow : Under (armName block other otherTag) name) :
    position = other ∧ tag = otherTag := by
  obtain ⟨rest, nameEq, -⟩ := below
  obtain ⟨otherRest, otherEq, -⟩ := otherBelow
  rw [toList_armName] at nameEq otherEq
  have same := nameEq.symm.trans otherEq
  simp only [List.append_assoc, List.append_cancel_left_eq, List.cons_append,
    List.cons.injEq, true_and] at same
  -- both go on with a number and then a tag, and no tag begins with a digit
  have digits : ∀ number : Nat, ∀ char ∈ Nat.toDigits 10 number, char.isDigit :=
    fun number char member => Nat.isDigit_of_mem_toDigits (by decide) (by decide) member
  have ended : ∀ {tag : String}, IsTag tag → ∀ rest : List Char,
      ∀ char ∈ (tag.toList ++ rest).head?, ¬ char.isDigit := by
    rintro tag (rfl | rfl) rest char isHead <;>
      · obtain rfl : _ = char := by simpa using isHead
        decide
  obtain ⟨sameDigits, sameRest⟩ := run_unique same (digits _) (digits _) (ended isTag rest)
    (ended isOtherTag otherRest)
  refine ⟨toDigits_injective sameDigits, ?_⟩
  rcases isTag with rfl | rfl <;> rcases isOtherTag with rfl | rfl <;> simp_all

/-- A name tells the function whose block it names, where no function has a dot in its name. -/
theorem eq_of_under {first second name : String} (firstDotFree : DotFree first)
    (secondDotFree : DotFree second) (firstUnder : Under first name)
    (secondUnder : Under second name) : first = second := by
  obtain ⟨firstRest, firstEq, firstDot⟩ := firstUnder
  obtain ⟨secondRest, secondEq, secondDot⟩ := secondUnder
  -- the name of the function reaches up to the first dot
  have plain : ∀ {name : String}, DotFree name → ∀ char ∈ name.toList, (char != '.') = true := by
    intro name dotFree char member
    exact bne_iff_ne.mpr fun isDot => dotFree (isDot ▸ member)
  have same := run_unique (firstEq.symm.trans secondEq) (plain firstDotFree) (plain secondDotFree)
    (fun char isHead => by simp [firstDot char isHead])
    (fun char isHead => by simp [secondDot char isHead])
  exact String.toList_inj.mp same.1

theorem eq_of_under_of_dotFree {base name : String} (dotFree : DotFree name)
    (under : Under base name) : name = base := by
  obtain ⟨rest, nameEq, dot⟩ := under
  cases rest with
  | nil => exact String.toList_inj.mp (by simpa using nameEq)
  | cons char rest =>
    refine absurd ?_ dotFree
    rw [nameEq, dot char rfl]
    simp

/-! ## Names of the arms of a block -/

/-- The arms of statements stand under arms of their block, at positions inside their code. -/
theorem Yields.under_of_mem_names {options : Options} {params : List String} {block : String}
    {position : Nat} {stmts : List Stmt} {fragment : Fragment}
    (yields : Yields options params block position stmts fragment) :
    ∀ name ∈ fragment.arms.names, ∃ place tag, IsTag tag ∧ position ≤ place ∧
      place < position + fragment.instrs.length ∧ Under (armName block place tag) name := by
  induction yields with
  | nil block position => simp [Forest.names]
  | @expr block position value code rest tail compiled next ih
  | @ret block position value code rest tail compiled next ih =>
    intro name member
    obtain ⟨place, tag, isTag, lower, upper, under⟩ := ih name (by simpa using member)
    refine ⟨place, tag, isTag, by omega, ?_, under⟩
    simp only [Fragment.instrs_append, Fragment.instrs_ofInstrs, List.length_append]
    omega
  | retNothing next ih => exact ih
  | @ifElse block position cond thenArm elseArm test taken other rest tail compiled thenYields
      elseYields next ihThen ihElse ihNext =>
    intro name member
    have length : (conditional block position test taken other ++ tail).instrs.length =
        test.length + 1 + tail.instrs.length := by simp; omega
    rw [length]
    simp only [Fragment.arms_append, conditional_arms, Forest.node_append, Forest.nil_append,
      Forest.names, List.mem_cons, List.mem_append] at member
    -- both arms stand at the place of the branch, and so does all that is nested in them
    rcases member with rfl | inTaken | rfl | inOther | inTail
    · exact ⟨_, "t", .inl rfl, by omega, by omega, .refl _⟩
    · obtain ⟨place, tag, -, -, -, under⟩ := ihThen name inTaken
      exact ⟨_, "t", .inl rfl, by omega, by omega, (under_armName _ _ _).trans under⟩
    · exact ⟨_, "f", .inr rfl, by omega, by omega, .refl _⟩
    · obtain ⟨place, tag, -, -, -, under⟩ := ihElse name inOther
      exact ⟨_, "f", .inr rfl, by omega, by omega, (under_armName _ _ _).trans under⟩
    · obtain ⟨place, tag, isTag, lower, upper, under⟩ := ihNext name inTail
      exact ⟨place, tag, isTag, by omega, by omega, under⟩

theorem Yields.under_block {options : Options} {params : List String} {block : String}
    {position : Nat} {stmts : List Stmt} {fragment : Fragment}
    (yields : Yields options params block position stmts fragment) {name : String}
    (member : name ∈ fragment.arms.names) : Under block name ∧ ¬ Under name block := by
  obtain ⟨place, tag, -, -, -, under⟩ := yields.under_of_mem_names name member
  refine ⟨(under_armName _ _ _).trans under, fun back => ?_⟩
  exact not_armName_under block place tag (under.trans back)

/-- The arms of statements have different names. -/
theorem Yields.nodup_names {options : Options} {params : List String} {block : String}
    {position : Nat} {stmts : List Stmt} {fragment : Fragment}
    (yields : Yields options params block position stmts fragment) :
    fragment.arms.names.Nodup := by
  induction yields with
  | nil block position => simp [Forest.names]
  | expr compiled next ih => simpa using ih
  | ret compiled next ih => simpa using ih
  | retNothing next ih => exact ih
  | @ifElse block position cond thenArm elseArm test taken other rest tail compiled thenYields
      elseYields next ihThen ihElse ihNext =>
    -- an arm with what is nested in it
    have armNodup : ∀ {name : String} {stmts : List Stmt} {fragment : Fragment},
        Yields options params name 0 stmts fragment → fragment.arms.names.Nodup →
        (name :: fragment.arms.names).Nodup := by
      intro name stmts fragment yields nodup
      refine List.nodup_cons.mpr ⟨fun member => ?_, nodup⟩
      exact (yields.under_block member).2 (.refl name)
    have armUnder : ∀ {name : String} {stmts : List Stmt} {fragment : Fragment},
        Yields options params name 0 stmts fragment →
        ∀ nested ∈ name :: fragment.arms.names, Under name nested := by
      intro name stmts fragment yields nested member
      rcases List.mem_cons.mp member with rfl | inArms
      · exact .refl _
      · exact (yields.under_block inArms).1
    have split : (conditional block position test taken other ++ tail).arms.names =
        (armName block (position + test.length) "t" :: taken.arms.names) ++
          ((armName block (position + test.length) "f" :: other.arms.names) ++ tail.arms.names) := by
      simp [Forest.names]
    rw [split]
    -- the arms of one conditional differ in their tags, those of different ones in their places
    refine (armNodup thenYields ihThen).append ((armNodup elseYields ihElse).append ihNext ?_) ?_
    · intro name inElse inTail
      obtain ⟨place, tag, isTag, lower, -, under⟩ := next.under_of_mem_names name inTail
      have same := armName_under_unique (.inr rfl) isTag (armUnder elseYields name inElse) under
      omega
    · intro name inThen inRest
      rcases List.mem_append.mp inRest with inElse | inTail
      · have same := armName_under_unique (.inl rfl) (.inr rfl) (armUnder thenYields name inThen)
          (armUnder elseYields name inElse)
        exact absurd same.2 (by decide)
      · obtain ⟨place, tag, isTag, lower, -, under⟩ := next.under_of_mem_names name inTail
        have same := armName_under_unique (.inl rfl) isTag (armUnder thenYields name inThen) under
        omega

end Secd
