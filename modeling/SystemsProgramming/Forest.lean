/-
Finite ordered forests with labels, walked in preorder: how far a search gets, the first
node with a given label, its removal, and the removal of an ancestor of it.
-/
import Mathlib.Data.List.Basic

namespace SystemsProgramming

universe u

section UpTo

variable {α : Type u} {here : α → Bool}

/-- A list as far as a search in it gets: up to the first element with `here`, which is
included. -/
def upTo (here : α → Bool) (l : List α) : List α :=
  l.takeWhile (fun y => !here y) ++ (l.find? here).toList

@[simp] theorem upTo_nil : upTo here [] = [] := rfl

theorem upTo_cons_of_pos {y : α} (hy : here y = true) (l : List α) :
    upTo here (y :: l) = [y] := by
  simp [upTo, hy]

theorem upTo_cons_of_neg {y : α} (hy : here y = false) (l : List α) :
    upTo here (y :: l) = y :: upTo here l := by
  simp [upTo, hy]

/-- A search does not get behind the part of a list where it succeeds. -/
theorem upTo_append (l l' : List α) :
    upTo here (l ++ l') = if l.any here then upTo here l else l ++ upTo here l' := by
  induction l with
  | nil => rfl
  | cons y l ih =>
      cases hy : here y with
      | true => simp [upTo_cons_of_pos hy, hy]
      | false =>
          rw [List.cons_append, upTo_cons_of_neg hy, upTo_cons_of_neg hy, ih, List.any_cons, hy,
            Bool.false_or]
          cases l.any here <;> rfl

theorem upTo_of_not_any {l : List α} (hnone : l.any here = false) : upTo here l = l := by
  have happend : upTo here (l ++ []) = _ := upTo_append l []
  rw [hnone] at happend
  simpa using happend

end UpTo

/-- The first tree by its label and what is below it, and the trees beside it. -/
inductive Forest (α : Type u) where
  | nil
  | cons (label : α) (below beside : Forest α)
deriving Repr, DecidableEq

namespace Forest

variable {α : Type u}

/-- The labels in preorder. -/
def labels : Forest α → List α
  | nil => []
  | cons y below beside => y :: (below.labels ++ beside.labels)

@[simp] theorem mem_labels_cons {z y : α} {below beside : Forest α} :
    z ∈ (cons y below beside).labels ↔ z = y ∨ z ∈ below.labels ∨ z ∈ beside.labels := by
  simp [labels]

/-- The labels of the outermost nodes. -/
def tops : Forest α → List α
  | nil => []
  | cons y _ beside => y :: beside.tops

/-- A node labelled `p` has a child labelled `c`. -/
def HasEdge (p c : α) : Forest α → Prop
  | nil => False
  | cons y below beside =>
      (y = p ∧ c ∈ below.tops) ∨ below.HasEdge p c ∨ beside.HasEdge p c

variable [DecidableEq α] (x : α)

/-- The depth of the first `x`; an outermost node has depth 1. -/
def depth : Forest α → Option Nat
  | nil => none
  | cons y below beside =>
      if y = x then some 1
      else
        match below.depth with
        | some d => some (d + 1)
        | none => beside.depth

/-- The forest without the first `x` and what is below it. -/
def removeFirst : Forest α → Option (Forest α)
  | nil => none
  | cons y below beside =>
      if y = x then some beside
      else
        match below.removeFirst with
        | some below => some (cons y below beside)
        | none => beside.removeFirst.map (cons y below)

/-- The forest without the tree that is `k` levels down the path to the first `x`, or
without the first `x` where it is not so deep. -/
def cut : Nat → Forest α → Option (Forest α)
  | _, nil => none
  | k, cons y below beside =>
      if y = x then some beside
      else if x ∈ below.labels then
        match k with
        | 0 => some beside
        | k + 1 => (below.cut k).map fun below => cons y below beside
      else (beside.cut k).map (cons y below)

variable {x}

theorem depth_pos {f : Forest α} {d : Nat} (hdepth : f.depth x = some d) : 0 < d := by
  induction f generalizing d with
  | nil => simp [depth] at hdepth
  | cons y below beside ihbelow ihbeside =>
      unfold depth at hdepth
      by_cases hy : y = x
      · simp only [if_pos hy, Option.some.injEq] at hdepth
        omega
      · rw [if_neg hy] at hdepth
        cases hbelow : below.depth x with
        | some e =>
            simp only [hbelow, Option.some.injEq] at hdepth
            omega
        | none =>
            simp only [hbelow] at hdepth
            exact ihbeside hdepth

theorem depth_eq_none_iff {f : Forest α} : f.depth x = none ↔ x ∉ f.labels := by
  induction f with
  | nil => simp [depth, labels]
  | cons y below beside ihbelow ihbeside =>
      unfold depth
      by_cases hy : y = x
      · simp [hy]
      · rw [if_neg hy, mem_labels_cons]
        cases hbelow : below.depth x with
        | some d =>
            have hmem : x ∈ below.labels := by
              by_contra hnot
              simp [ihbelow.mpr hnot] at hbelow
            simp [hmem]
        | none =>
            have hnot := ihbelow.mp hbelow
            have hne : x ≠ y := fun h => hy h.symm
            simp [ihbeside, hnot, hne]

theorem mem_of_depth {f : Forest α} {d : Nat} (hdepth : f.depth x = some d) :
    x ∈ f.labels := by
  by_contra hnot
  simp [depth_eq_none_iff.mpr hnot] at hdepth

theorem removeFirst_eq_none_iff {f : Forest α} : f.removeFirst x = none ↔ x ∉ f.labels := by
  induction f with
  | nil => simp [removeFirst, labels]
  | cons y below beside ihbelow ihbeside =>
      unfold removeFirst
      by_cases hy : y = x
      · simp [hy]
      · rw [if_neg hy, mem_labels_cons]
        cases hbelow : below.removeFirst x with
        | some rest =>
            have hmem : x ∈ below.labels := by
              by_contra hnot
              simp [ihbelow.mpr hnot] at hbelow
            simp [hmem]
        | none =>
            have hnot := ihbelow.mp hbelow
            have hne : x ≠ y := fun h => hy h.symm
            simp [ihbeside, hnot, hne]

theorem cut_of_mem {f : Forest α} (k : Nat) (hmem : x ∈ f.labels) :
    ∃ rest, f.cut x k = some rest := by
  induction f generalizing k with
  | nil => simp [labels] at hmem
  | cons y below beside ihbelow ihbeside =>
      unfold cut
      by_cases hy : y = x
      · exact ⟨beside, if_pos hy⟩
      · rw [if_neg hy]
        by_cases hbelow : x ∈ below.labels
        · rw [if_pos hbelow]
          cases k with
          | zero => exact ⟨beside, rfl⟩
          | succ k =>
              obtain ⟨rest, hrest⟩ := ihbelow k hbelow
              exact ⟨cons y rest beside, by simp [hrest]⟩
        · have hbeside : x ∈ beside.labels := by
            rcases mem_labels_cons.mp hmem with h | h | h
            · exact absurd h.symm hy
            · exact absurd h hbelow
            · exact h
          obtain ⟨rest, hrest⟩ := ihbeside k hbeside
          exact ⟨cons y below rest, by simp [hbelow, hrest]⟩

/-- A cut at the depth of the first `x`, or below it, removes just that node. -/
theorem cut_eq_removeFirst {f : Forest α} {k d : Nat} (hdepth : f.depth x = some d)
    (hle : d ≤ k + 1) : f.cut x k = f.removeFirst x := by
  induction f generalizing k d with
  | nil => rfl
  | cons y below beside ihbelow ihbeside =>
      unfold depth at hdepth
      unfold cut removeFirst
      by_cases hy : y = x
      · rw [if_pos hy, if_pos hy]
      · rw [if_neg hy] at hdepth
        rw [if_neg hy, if_neg hy]
        cases hbelow : below.depth x with
        | some e =>
            have hmem := mem_of_depth hbelow
            have hpos := depth_pos hbelow
            have hd : e + 1 = d := by simpa [hbelow] using hdepth
            rw [if_pos hmem]
            cases k with
            | zero => omega
            | succ k =>
                have hcut := ihbelow hbelow (k := k) (by omega)
                cases hrest : below.removeFirst x with
                | none => exact absurd hmem (removeFirst_eq_none_iff.mp hrest)
                | some rest => simp [hcut, hrest]
        | none =>
            have hnot := depth_eq_none_iff.mp hbelow
            have hbeside : beside.depth x = some d := by simpa [hbelow] using hdepth
            rw [if_neg hnot, removeFirst_eq_none_iff.mpr hnot, ihbeside hbeside hle]

/-- A cut above the first `x` removes more than that node. -/
theorem length_cut_lt {f rest rest' : Forest α} {k d : Nat} (hdepth : f.depth x = some d)
    (hlt : k + 1 < d) (hcut : f.cut x k = some rest) (hremove : f.removeFirst x = some rest') :
    rest.labels.length < rest'.labels.length := by
  induction f generalizing k d rest rest' with
  | nil => simp [depth] at hdepth
  | cons y below beside ihbelow ihbeside =>
      unfold depth at hdepth
      unfold cut at hcut
      unfold removeFirst at hremove
      by_cases hy : y = x
      · simp only [if_pos hy, Option.some.injEq] at hdepth
        omega
      · rw [if_neg hy] at hdepth hcut hremove
        cases hbelow : below.depth x with
        | some e =>
            have hmem := mem_of_depth hbelow
            have hd : e + 1 = d := by simpa [hbelow] using hdepth
            rw [if_pos hmem] at hcut
            cases hinner : below.removeFirst x with
            | none => exact absurd hmem (removeFirst_eq_none_iff.mp hinner)
            | some inner =>
                obtain rfl : cons y inner beside = rest' := by simpa [hinner] using hremove
                cases k with
                | zero =>
                    obtain rfl : beside = rest := by simpa using hcut
                    simp only [labels, List.length_cons, List.length_append]
                    omega
                | succ k =>
                    obtain ⟨part, hpart, rfl⟩ := Option.map_eq_some_iff.mp hcut
                    have hshorter := ihbelow hbelow (by omega) hpart hinner
                    simp only [labels, List.length_cons, List.length_append]
                    omega
        | none =>
            have hnot := depth_eq_none_iff.mp hbelow
            have hbeside : beside.depth x = some d := by simpa [hbelow] using hdepth
            rw [if_neg hnot] at hcut
            simp only [removeFirst_eq_none_iff.mpr hnot] at hremove
            obtain ⟨part, hpart, rfl⟩ := Option.map_eq_some_iff.mp hcut
            obtain ⟨inner, hinner, rfl⟩ := Option.map_eq_some_iff.mp hremove
            have hshorter := ihbeside hbeside hlt hpart hinner
            simp only [labels, List.length_cons, List.length_append]
            omega

/-- Only a cut that is deep enough is the removal of the first `x`. -/
theorem cut_eq_removeFirst_iff {f : Forest α} {k d : Nat} (hdepth : f.depth x = some d) :
    f.cut x k = f.removeFirst x ↔ d ≤ k + 1 := by
  constructor
  · intro heq
    by_contra hlt
    obtain ⟨rest, hrest⟩ := cut_of_mem k (mem_of_depth hdepth)
    have hshorter := length_cut_lt hdepth (by omega) hrest (heq.symm.trans hrest)
    exact Nat.lt_irrefl _ hshorter
  · exact cut_eq_removeFirst hdepth

end Forest

end SystemsProgramming
