import XPath.Tree.Order
import Mathlib.Data.List.Sort

/-!
# Document order is a strict order on places

Nodes at different places are before or after each other, so sorting and dropping repeats leaves a
strictly increasing list. Sorting keeps the nodes.
-/

namespace XPath

open List

variable {a b c : Node} {nodes : List Node}

namespace Node

theorem compare_eq_lt_iff : a.compare b = .lt ↔ a.orderKey.1 < b.orderKey.1 ∨ a.orderKey.1 = b.orderKey.1 ∧
      (a.orderKey.2.1 < b.orderKey.2.1 ∨ a.orderKey.2.1 = b.orderKey.2.1 ∧
        a.orderKey.2.2 < b.orderKey.2.2) := by
  simp only [compare, compareKeys, Ordering.then_eq_lt, Nat.compare_eq_lt, Nat.compare_eq_eq]

theorem compare_eq_eq_iff : a.compare b = .eq ↔ a.orderKey = b.orderKey := by
  simp only [compare, compareKeys, Ordering.then_eq_eq, Nat.compare_eq_eq, Prod.ext_iff]

theorem precedesOrSame_iff : a.precedesOrSame b = true ↔ a.compare b = .lt ∨ a.compare b = .eq := by
  unfold precedesOrSame
  cases a.compare b <;> simp

/-- A place is known by its key. -/
theorem samePlace_iff : a.samePlace b = true ↔ a.compare b = .eq := by
  rw [compare_eq_eq_iff]
  obtain ⟨da, pa⟩ := a
  obtain ⟨db, pb⟩ := b
  cases pa <;> cases pb <;> simp [samePlace, orderKey]

/-- Nodes at one place are the same if their documents are known by their numbers. -/
theorem eq_of_compare_eq (hdoc : a.doc.id = b.doc.id → a.doc = b.doc) (h : a.compare b = .eq) : a = b := by
  have hsame := samePlace_iff.mpr h
  simp only [samePlace, Bool.and_eq_true, beq_iff_eq] at hsame
  obtain ⟨doc, place⟩ := a
  obtain ⟨doc', place'⟩ := b
  cases hdoc hsame.1
  cases hsame.2
  rfl

theorem compare_lt_trans (hab : a.compare b = .lt) (hbc : b.compare c = .lt) : a.compare c = .lt := by
  rw [compare_eq_lt_iff] at *
  omega

theorem precedesOrSame_trans (hab : a.precedesOrSame b = true) (hbc : b.precedesOrSame c = true) :
    a.precedesOrSame c = true := by
  rw [precedesOrSame_iff, compare_eq_lt_iff, compare_eq_eq_iff, Prod.ext_iff, Prod.ext_iff] at *
  omega

theorem precedesOrSame_total (a b : Node) : (a.precedesOrSame b || b.precedesOrSame a) = true := by
  rw [Bool.or_eq_true, precedesOrSame_iff, precedesOrSame_iff, compare_eq_lt_iff, compare_eq_eq_iff,
    compare_eq_lt_iff, compare_eq_eq_iff, Prod.ext_iff, Prod.ext_iff, Prod.ext_iff, Prod.ext_iff]
  omega

end Node

theorem dropRepeats_sublist (nodes : List Node) : (dropRepeats nodes).Sublist nodes := by
  fun_induction dropRepeats nodes with
  | case1 | case2 a => exact .refl _
  | case3 a b rest h ih => exact ih.trans ((sublist_cons_self b rest).cons_cons a)
  | case4 a b rest h ih => exact ih.cons_cons a

/-- In a sorted list repeats are neighbours. -/
theorem dropRepeats_pairwise (h : nodes.Pairwise fun a b => a.precedesOrSame b = true) :
    (dropRepeats nodes).Pairwise fun a b => a.compare b = .lt := by
  fun_induction dropRepeats nodes with
  | case1 => exact .nil
  | case2 a => exact pairwise_singleton _ a
  | case3 a b rest hab ih =>
    refine ih (h.sublist ((sublist_cons_self b rest).cons_cons a))
  | case4 a b rest hab ih =>
    obtain ⟨ha, hrest⟩ := pairwise_cons.mp h
    refine pairwise_cons.mpr ⟨?_, ih hrest⟩
    have hlt : a.compare b = .lt := by
      rcases Node.precedesOrSame_iff.mp (ha b (.head _)) with hlt | heq
      · exact hlt
      · exact absurd (Node.samePlace_iff.mpr heq) hab
    intro c hc
    rcases mem_cons.mp ((dropRepeats_sublist (b :: rest)).mem hc) with rfl | hc
    · exact hlt
    · rcases Node.precedesOrSame_iff.mp ((pairwise_cons.mp hrest).1 c hc) with hbc | hbc
      · exact Node.compare_lt_trans hlt hbc
      · rw [Node.compare_eq_eq_iff] at hbc
        rw [Node.compare_eq_lt_iff] at hlt ⊢
        rw [← hbc]
        exact hlt

theorem mem_of_mem_inDocumentOrder {unique : Bool} {n : Node} (h : n ∈ inDocumentOrder unique nodes) : n ∈ nodes := by
  cases unique with
  | false => exact mem_mergeSort.mp h
  | true => exact mem_mergeSort.mp ((dropRepeats_sublist _).mem h)

theorem exists_mem_dropRepeats (nodes : List Node) : ∀ n ∈ nodes, ∃ m ∈ dropRepeats nodes, m.compare n = .eq := by
  simp only [Node.compare_eq_eq_iff]
  fun_induction dropRepeats nodes with
  | case1 => exact fun n hn => nomatch hn
  | case2 a => exact fun n hn => ⟨n, hn, rfl⟩
  | case3 a b rest hab ih =>
    have hsame : a.orderKey = b.orderKey := Node.compare_eq_eq_iff.mp (Node.samePlace_iff.mp hab)
    intro n hn
    rcases mem_cons.mp hn with rfl | hn
    · exact ih n (.head _)
    · rcases mem_cons.mp hn with rfl | hn
      · rw [← hsame]
        exact ih a (.head _)
      · exact ih n (.tail a hn)
  | case4 a b rest hab ih =>
    intro n hn
    rcases mem_cons.mp hn with rfl | hn
    · exact ⟨n, (.head _), rfl⟩
    · obtain ⟨m, hm, heq⟩ := ih n hn
      exact ⟨m, .tail _ hm, heq⟩

theorem pairwise_mergeSort_nodes (nodes : List Node) :
    (nodes.mergeSort Node.precedesOrSame).Pairwise fun a b => a.precedesOrSame b = true := by
  refine pairwise_mergeSort ?_ Node.precedesOrSame_total nodes
  exact fun _ _ _ => Node.precedesOrSame_trans

theorem pairwise_inDocumentOrder (nodes : List Node) :
    (inDocumentOrder true nodes).Pairwise fun a b => a.compare b = .lt :=
  dropRepeats_pairwise (pairwise_mergeSort_nodes nodes)

end XPath
