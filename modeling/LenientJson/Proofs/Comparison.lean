import LenientJson.Proofs.Similar
import LenientJson.Proofs.Store.Call

/-! When a comparison fails. Comparing two leaves can fail, and an object takes such a failure for unlike. An
array does not: it fails with the first elements that fail, unless an earlier element is unlike. -/
namespace LenientJson

namespace Scalar

/-- Two leaves whose comparison fails, and how. A truth value is compared with nothing but truth values, and null
on the left asks nobody. -/
inductive Clash : Scalar → Scalar → Fault → Prop
  | refused {a b : Scalar} (some : a ≠ null) (other : ∀ value, a ≠ bool value) (other' : ∀ value, b ≠ bool value)
    (refuses : a.isIncomparable = true ∨ b.isIncomparable = true) : Clash a b refusal
  | signaling {a b : Scalar} {x y : Quantity} (other : ∀ value, a ≠ bool value) (other' : ∀ value, b ≠ bool value)
    (answers : a.isIncomparable = false) (answers' : b.isIncomparable = false) (quantity : a.quantity? = some x)
    (quantity' : b.quantity? = some y) (signals : x = .signaling ∨ y = .signaling) : Clash a b .invalidComparison

variable {a b : Scalar} {fault : Fault}

theorem equals_eq_error_iff (other : ∀ value, a ≠ bool value) (other' : ∀ value, b ≠ bool value) :
    a.equals b = .error fault ↔ a.Clash b fault := by
  constructor
  · intro fails
    unfold equals at fails
    split at fails
    · cases fails
    · next some =>
      split at fails
      · next refuses =>
        cases fails
        exact .refused some other other' (by simpa using refuses)
      · next answer =>
        obtain ⟨answers, answers'⟩ := Bool.or_eq_false_iff.mp (Bool.eq_false_of_not_eq_true answer)
        split at fails
        · next x y quantity quantity' =>
          unfold equalQuantities at fails
          split at fails
          · next signals =>
            cases fails
            exact .signaling other other' answers answers' quantity quantity' signals
          · cases fails
        · cases fails
        · cases fails
        · split at fails <;> cases fails
  · rintro (⟨some, -, -, refuses⟩ | ⟨-, -, answers, answers', quantity, quantity', signals⟩)
    · simp [equals, some, refuses]
    · have number : a ≠ null := by
        rintro rfl
        cases quantity
      simp [equals, number, answers, answers', quantity, quantity', equalQuantities, signals]

theorem like_eq_error_iff : a.like b = .error fault ↔ a.Clash b fault := by
  unfold like
  split
  · next value value' =>
    refine iff_of_false nofun ?_
    rintro (⟨-, other, -, -⟩ | ⟨other, -, -, -, -, -, -⟩) <;> exact other value rfl
  · next value _ =>
    refine iff_of_false nofun ?_
    rintro (⟨-, other, -, -⟩ | ⟨other, -, -, -, -, -, -⟩) <;> exact other value rfl
  · next _ value _ =>
    refine iff_of_false nofun ?_
    rintro (⟨-, -, other, -⟩ | ⟨-, other, -, -, -, -, -⟩) <;> exact other value rfl
  · next other other' _ => exact equals_eq_error_iff other other'

end Scalar

namespace Value

/-- Two documents whose comparison fails, and how: at two leaves, at a leaf next to a container, or at two arrays of
one size that are alike up to elements whose comparison fails. -/
inductive Fails : Tree → Tree → Fault → Prop
  | leaves {a b : Scalar} {fault : Fault} (clash : a.Clash b fault) : Fails (.scalar a) (.scalar b) fault
  | leaf {a : Scalar} {v : Tree} (refuses : a.isIncomparable = true) (container : v.isContainer = true) :
    Fails (.scalar a) v Scalar.refusal
  | array {before before' after after' : List (Option Tree)} {v w : Tree} {fault : Fault}
    (alike : List.Forall₂ ElementsAlike before before') (sizes : after.length = after'.length) (fails : Fails v w fault) :
    Fails (.array (before ++ some v :: after)) (.array (before' ++ some w :: after')) fault

variable {fault : Fault}

theorem Fails.similar {v w : Tree} (fails : v.Fails w fault) : v.similar w = .error fault := by
  induction fails with
  | leaves clash => exact Scalar.like_eq_error_iff.mpr clash
  | @leaf a v refuses container =>
    cases v with
    | scalar => cases container
    | _ => simp [Value.similar, likeOther, refuses]
  | @array before before' after after' v w fault alike sizes fails ih =>
    have sizes : (before ++ some v :: after).length = (before' ++ some w :: after').length := by
      simp [alike.length_eq, sizes]
    rw [Value.similar, if_pos sizes, similarElements_append alike, similarElements, ih]
    rfl

mutual
theorem fails_of_similar : ∀ v w : Tree, v.similar w = .error fault → v.Fails w fault
  | .scalar a, .scalar b, fails => .leaves (Scalar.like_eq_error_iff.mp fails)
  | .scalar a, .object _, fails | .scalar a, .array _, fails => by
    simp only [similar, likeOther] at fails
    split at fails
    · next refuses =>
      cases fails
      exact .leaf refuses rfl
    · cases fails
  | .object mine, .object theirs, fails => by
    rw [similar] at fails
    split at fails
    · split at fails <;> cases fails
    · cases fails
  | .array mine, .array theirs, fails => by
    rw [similar] at fails
    split at fails
    · next sizes =>
      obtain ⟨before, v, after, before', w, after', rfl, rfl, alike, fails⟩ := fails_of_similarElements mine theirs fails
      exact .array alike (by simpa [alike.length_eq] using sizes) fails
    · cases fails
  | .object _, .scalar _, fails | .object _, .array _, fails | .array _, .scalar _, fails | .array _, .object _, fails =>
    nomatch fails

/-- Elements are compared up to the first ones that are not alike. -/
theorem fails_of_similarElements : ∀ mine theirs : List (Option Tree), similarElements mine theirs = .error fault →
    ∃ before v after before' w after', mine = before ++ some v :: after ∧ theirs = before' ++ some w :: after' ∧
      List.Forall₂ ElementsAlike before before' ∧ v.Fails w fault
  | some v :: mine, some w :: theirs, fails => by
    rw [similarElements] at fails
    cases answer : v.similar w with
    | error fault' =>
      rw [answer] at fails
      cases fails
      exact ⟨[], v, mine, [], w, theirs, rfl, rfl, .nil, fails_of_similar v w answer⟩
    | ok alike =>
      rw [answer] at fails
      cases alike with
      | false => cases fails
      | true =>
        obtain ⟨before, v', after, before', w', after', rfl, rfl, others, inner⟩ := fails_of_similarElements mine theirs fails
        exact ⟨some v :: before, v', after, some w :: before', w', after', rfl, rfl, .cons ⟨v, w, rfl, rfl, answer⟩ others,
          inner⟩
  | [], [], fails | [], _ :: _, fails | none :: _, [], fails | some _ :: _, [], fails | none :: _, _ :: _, fails
  | some _ :: _, none :: _, fails => nomatch fails
end

theorem similar_eq_error_iff {v w : Tree} : v.similar w = .error fault ↔ v.Fails w fault :=
  ⟨fails_of_similar v w, Fails.similar⟩

theorem exists_answer {v w : Tree} (never : ∀ fault, ¬ v.Fails w fault) : ∃ answer, v.similar w = .ok answer := by
  cases result : v.similar w with
  | ok answer => exact ⟨answer, rfl⟩
  | error fault => exact absurd (similar_eq_error_iff.mp result) (never fault)

end Value

namespace Store

theorem object_of_tree? {st : Store} {o : Nat} {v : Tree} (tree : st.tree? (.link (.object o)) = some v) :
    ∃ members, v = .object members := by
  unfold tree? at tree
  generalize st.objects.length + st.arrays.length = depth at tree
  cases depth with
  | zero => cases tree
  | succ depth =>
    obtain ⟨members, -, rfl⟩ := Option.map_eq_some_iff.mp tree
    exact ⟨members, rfl⟩

theorem array_of_tree? {st : Store} {a : Nat} {v : Tree} (tree : st.tree? (.link (.array a)) = some v) :
    ∃ elements, v = .array elements := by
  unfold tree? at tree
  generalize st.objects.length + st.arrays.length = depth at tree
  cases depth with
  | zero => cases tree
  | succ depth =>
    obtain ⟨elements, -, rfl⟩ := Option.map_eq_some_iff.mp tree
    exact ⟨elements, rfl⟩

/-- Containers with documents are compared by these. -/
theorem similar_of_tree? {st : Store} {mine theirs : Link} {v w : Tree} (tree : st.tree? (.link mine) = some v)
    (tree' : st.tree? (.link theirs) = some w) : st.similar mine (.link theirs) = v.similar w := by
  have sight : (st.view mine).tree? = some v := tree
  have sight' : (st.view theirs).tree? = some w := tree'
  simp only [similar, Host.similar, sight, sight']

/-- Two containers that are not both arrays are unlike if one of them has no document. -/
theorem similar_of_missing {st : Store} {mine theirs : Link} (mixed : ∀ a b, mine = .array a → theirs ≠ .array b)
    (missing : st.tree? (.link mine) = none ∨ st.tree? (.link theirs) = none) :
    st.similar mine (.link theirs) = .ok false := by
  have sight : (st.view mine).tree? = none ∨ (st.view theirs).tree? = none := missing
  simp only [similar, Host.similar]
  split
  · next left right => rcases sight with none | none <;> simp [none] at left right
  · exact absurd rfl (mixed _ _ rfl)
  · rfl

/-- A value that is no array, or an array with a document. -/
def Unfolds (st : Store) (other : Host) : Prop := ∀ b, other = .link (.array b) → ∃ w, st.tree? (.link (.array b)) = some w

/-- An object always answers, whatever it is compared with, and whatever it holds. An array with a document, compared
with anything but an array without one, fails just when that is an array at whose elements the comparison fails. -/
theorem similar_fails_iff (st : Store) (other : Host) :
    (∀ o, ∃ answer, st.similar (.object o) other = .ok answer) ∧
    ∀ a v fault, st.tree? (.link (.array a)) = some v → st.Unfolds other →
      (st.similar (.array a) other = .error fault ↔
        ∃ b w, other = .link (.array b) ∧ st.tree? (.link (.array b)) = some w ∧ v.Fails w fault) := by
  constructor
  · intro o
    cases other with
    | link theirs =>
      cases tree : st.tree? (.link (.object o)) with
      | none => exact ⟨false, similar_of_missing nofun (.inl tree)⟩
      | some v =>
        cases tree' : st.tree? (.link theirs) with
        | none => exact ⟨false, similar_of_missing nofun (.inr tree')⟩
        | some w =>
          obtain ⟨members, rfl⟩ := object_of_tree? tree
          rw [similar_of_tree? tree tree']
          exact Value.exists_answer fun fault fails => nomatch fails
    | _ => exact ⟨false, rfl⟩
  · intro a v fault tree unfolds
    constructor
    · intro fails
      cases other with
      | link theirs =>
        cases theirs with
        | array b =>
          obtain ⟨w, tree'⟩ := unfolds b rfl
          rw [similar_of_tree? tree tree', Value.similar_eq_error_iff] at fails
          exact ⟨b, w, rfl, tree', fails⟩
        | object o =>
          cases tree' : st.tree? (.link (.object o)) with
          | none =>
            have unlike : st.similar (.array a) (.link (.object o)) = .ok false :=
              similar_of_missing (fun _ _ _ => nofun) (.inr tree')
            cases unlike.symm.trans fails
          | some w =>
            obtain ⟨elements, rfl⟩ := array_of_tree? tree
            obtain ⟨members, rfl⟩ := object_of_tree? tree'
            rw [similar_of_tree? tree tree'] at fails
            cases fails
      | _ => cases fails
    · rintro ⟨b, w, rfl, tree', fails⟩
      rw [similar_of_tree? tree tree']
      exact fails.similar

/-- A signaling decimal next to an integer. -/
theorem similar_fails_iff_signaling :
    let st : Store := ⟨[], [[some (.leaf (.decimal (.nan false true [])))], [some (.leaf (.int 1))]], [], ⟨80, 80, 80⟩⟩
    st.tree? (.link (.array 0)) = some (.array [some (.scalar (.decimal (.nan false true [])))]) ∧
      st.Unfolds (.link (.array 1)) ∧ st.similar (.array 0) (.link (.array 1)) = .error .invalidComparison := by
  intro st
  have tree : st.tree? (.link (.array 0)) = some (.array [some (.scalar (.decimal (.nan false true [])))]) := rfl
  have tree' : st.tree? (.link (.array 1)) = some (.array [some (.scalar (.int 1))]) := rfl
  have unfolds : st.Unfolds (.link (.array 1)) := by
    rintro b same
    cases same
    exact ⟨_, tree'⟩
  have fails := (similar_fails_iff st (.link (.array 1))).2 0 _ .invalidComparison tree unfolds
  refine ⟨tree, unfolds, fails.mpr ⟨1, _, rfl, tree', ?_⟩⟩
  exact @Value.Fails.array [] [] [] [] _ _ _ .nil rfl (.leaves (.signaling nofun nofun rfl rfl rfl rfl (.inl rfl)))

/-- A user object that fails at every comparison, as the only element of an array. -/
theorem similar_raises : ¬ ∀ (room : Room) (calls : List Call) (target : Link) (other : Host),
    ∃ answer, ((empty room).run calls).similar target other = .ok answer := by
  intro answers
  let face : Foreign := ⟨0, Text.ofString "Angry", .text (Text.ofString "angry"), .text (Text.ofString "angry"), none, none, false⟩
  obtain ⟨answer, similar⟩ := answers ⟨80, 80, 80⟩ [.array .absent, .push 0 (.user ⟨face, none, [], none, []⟩),
    .array .absent, .push 1 (.ofText (Text.ofString "x"))] (.array 0) (.link (.array 1))
  cases similar

end Store
end LenientJson
