/-
Singly linked lists in memory.  The memory says which addresses hold a node, and
`next` reads the pointer in a node; a list is a walk that ends in the null pointer.
-/
import Mathlib.Data.List.Nodup
import Mathlib.Logic.Function.Basic

namespace SystemsProgramming

universe u v

/-- The pointers from `start` lead through the nodes at the given addresses and end in
the null pointer. -/
inductive Chain {P : Type u} {N : Type v} (heap : P → Option N) (next : N → Option P) :
    Option P → List P → Prop
  | nil : Chain heap next none []
  | cons {address : P} {node : N} {rest : List P} : heap address = some node →
      Chain heap next (next node) rest → Chain heap next (some address) (address :: rest)

namespace Chain

variable {P : Type u} {N : Type v} {heap other : P → Option N} {next : N → Option P}
  {start : Option P} {addresses : List P}

@[simp] theorem none_iff : Chain heap next none addresses ↔ addresses = [] := by
  constructor
  · intro hchain
    cases hchain
    rfl
  · rintro rfl
    exact .nil

theorem eq_none_iff (hchain : Chain heap next start addresses) :
    start = none ↔ addresses = [] := by
  cases hchain <;> simp

theorem some_iff {address : P} : Chain heap next (some address) addresses ↔
    ∃ node rest, addresses = address :: rest ∧ heap address = some node ∧
      Chain heap next (next node) rest := by
  constructor
  · intro hchain
    cases hchain with
    | cons hnode hrest => exact ⟨_, _, rfl, hnode, hrest⟩
  · rintro ⟨node, rest, rfl, hnode, hrest⟩
    exact .cons hnode hrest

theorem start_eq {address : P} {rest : List P}
    (hchain : Chain heap next start (address :: rest)) : start = some address := by
  cases hchain
  rfl

/-- One memory holds at most one list from a pointer. -/
theorem unique {others : List P} (hchain : Chain heap next start addresses)
    (hother : Chain heap next start others) : addresses = others := by
  induction hchain generalizing others with
  | nil => exact (none_iff.mp hother).symm
  | cons hnode _ ih =>
      obtain ⟨node, rest, rfl, hsame, hrest⟩ := some_iff.mp hother
      obtain rfl := Option.some.inj (hnode.symm.trans hsame)
      rw [ih hrest]

theorem suffix {before after : List P} {address : P}
    (hchain : Chain heap next start (before ++ address :: after)) :
    Chain heap next (some address) (address :: after) := by
  induction before generalizing start with
  | nil =>
      cases hchain with
      | cons hnode hrest => exact .cons hnode hrest
  | cons first before ih =>
      cases hchain with
      | cons _ hrest => exact ih hrest

/-- A walk that ends never comes to a node twice. -/
theorem nodup (hchain : Chain heap next start addresses) : addresses.Nodup := by
  induction hchain with
  | nil => exact List.nodup_nil
  | cons hnode hrest ih =>
      refine List.nodup_cons.mpr ⟨fun hmem => ?_, ih⟩
      obtain ⟨before, after, rfl⟩ := List.append_of_mem hmem
      have hsame := unique (.cons hnode hrest) hrest.suffix
      have hlength := congrArg List.length hsame
      simp only [List.length_cons, List.length_append] at hlength
      omega

theorem allocated (hchain : Chain heap next start addresses) {address : P}
    (hmem : address ∈ addresses) : ∃ node, heap address = some node := by
  obtain ⟨before, after, rfl⟩ := List.append_of_mem hmem
  obtain ⟨node, -, -, hnode, -⟩ := some_iff.mp hchain.suffix
  exact ⟨node, hnode⟩

/-- Only the nodes of a list matter for it. -/
theorem congr (hchain : Chain heap next start addresses)
    (hsame : ∀ address ∈ addresses, other address = heap address) :
    Chain other next start addresses := by
  induction hchain with
  | nil => exact .nil
  | cons hnode _ ih =>
      refine .cons ((hsame _ List.mem_cons_self).trans hnode) (ih fun address hmem => ?_)
      exact hsame address (List.mem_cons_of_mem _ hmem)

theorem update [DecidableEq P] (hchain : Chain heap next start addresses) {address : P}
    (hnew : address ∉ addresses) (node : Option N) :
    Chain (Function.update heap address node) next start addresses := by
  refine hchain.congr fun p hp => Function.update_of_ne ?_ _ _
  rintro rfl
  exact hnew hp

/-- The store of a pointer in the last node puts the list it points to at the end. -/
theorem link [DecidableEq P] {front rest : List P} {last : P} {node : N}
    (hchain : Chain heap next start (front ++ [last])) (hrest : Chain heap next (next node) rest)
    (hlast : last ∉ rest) :
    Chain (Function.update heap last (some node)) next start (front ++ last :: rest) := by
  induction front generalizing start with
  | nil =>
      cases hchain
      exact .cons (Function.update_self ..) (hrest.update hlast _)
  | cons first front ih =>
      have hne : first ≠ last := by
        rintro rfl
        simpa using hchain.nodup
      cases hchain with
      | cons hnode htail =>
          exact .cons ((Function.update_of_ne hne _ _).trans hnode) (ih htail)

end Chain

end SystemsProgramming
