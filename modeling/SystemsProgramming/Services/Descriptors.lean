/-
The descriptors of one service of `service.c`: what the numbers in its list stand for
when those of killed children have been taken again.
-/
import SystemsProgramming.FileTable
import SystemsProgramming.Services.Network

namespace SystemsProgramming

namespace Services

/-- What a descriptor stands for: the ends of the two pipes of a child, which goes by its
place in the list, or a file that was open at the start. -/
inductive File where
  | other
  | commandRead (child : Nat)
  | commandWrite (child : Nat)
  | replyRead (child : Nat)
  | replyWrite (child : Nat)
deriving Repr, DecidableEq

/-- The `service` that is kept of a child. -/
structure Service where
  haveKilled : Bool
  readFd : Nat
  writeFd : Nat
deriving Repr, DecidableEq

/-- A service with its list; `written` records what each `write` reached. -/
structure Keeper where
  table : FileTable File
  children : List Service
  written : List (File × List Char)
deriving DecidableEq

/-- `pipe(fd)`: the read end gets the lower number. -/
def pipe (t : FileTable File) (readEnd writeEnd : File) : FileTable File × Nat × Nat :=
  let u := t.opened readEnd
  (u.opened writeEnd, t.lowest, u.lowest)

namespace Keeper

/-- A `write` to a number that is free fails. -/
def write (s : Keeper) (fd : Nat) (bytes : List Char) : Keeper :=
  match s.table.lookup fd with
  | some file => { s with written := s.written ++ [(file, bytes)] }
  | none => s

def close (s : Keeper) (fd : Nat) : Keeper := { s with table := s.table.close fd }

/-- `create_service` in the parent. -/
def createService (s : Keeper) (serviceName : List Char) : Keeper :=
  let child := s.children.length
  let (t, fd1) := pipe s.table (.commandRead child) (.commandWrite child)
  let (u, fd2) := pipe t (.replyRead child) (.replyWrite child)
  let newService : Service := ⟨false, fd2.1, fd1.2⟩
  let s := ({ s with table := u }.close fd2.2).close fd1.1
  { s with children := s.children ++ [newService] }.write newService.writeFd
    (serviceName ++ [nul])

/-- The child that said "yes" to a `kill` is marked, and its numbers are closed. -/
def remove (s : Keeper) (child : Nat) : Option Keeper :=
  match s.children[child]? with
  | none => none
  | some tmp =>
      if tmp.haveKilled then none
      else
        let children := s.children.set child { tmp with haveKilled := true }
        some (({ s with children := children }.close tmp.writeFd).close tmp.readFd)

/-- The loop that writes "dead" at one node. -/
def dead (s : Keeper) (tmp : Service) : Keeper :=
  ((s.write tmp.writeFd deadText).close tmp.writeFd).close tmp.readFd

/-- That loop over the whole list, marked children or not. -/
def deadLoop (s : Keeper) : Keeper := s.children.foldl dead s

/-- The children that are not marked, by their places in the list. -/
def unmarked (s : Keeper) : List Nat :=
  (List.range s.children.length).filter fun child =>
    (s.children[child]?.map Service.haveKilled) = some false

end Keeper

/-- What changes the list of a service. -/
inductive Change where
  | spawn
  | kill (child : Nat)
deriving Repr, DecidableEq

def Keeper.step (serviceName : List Char) (s : Keeper) : Change → Option Keeper
  | .spawn => some (s.createService serviceName)
  | .kill child => s.remove child

/-- A service starts without children and with any descriptors open besides its own five. -/
def descriptors (serviceName : List Char) : TransitionSystem Keeper Change where
  start s := s.children = [] ∧ s.written = [] ∧ (∀ fd < 5, s.table.lookup fd = some .other) ∧
    ∀ fd, s.table.lookup fd = none ∨ s.table.lookup fd = some .other
  step := Keeper.step serviceName

/-- What the two numbers of a child come to: one pair of numbers, open or not. -/
structure Pair where
  isOpen : Bool
  number : Nat
deriving Repr, DecidableEq

namespace Pair

/-- The child at the pair with number `n`. -/
def holder (pairs : List Pair) (n : Nat) : Option Nat :=
  pairs.findIdx? fun pair => pair.isOpen && pair.number = n

/-- The first pair that is free. -/
def free (pairs : List Pair) : Nat :=
  ((List.range (pairs.length + 1)).find? fun n =>
    !pairs.any fun pair => pair.isOpen && pair.number = n).getD 0

/-- The pair with number `n` is closed, whoever holds it. -/
def shut (n : Nat) (pairs : List Pair) : List Pair :=
  pairs.map fun pair => if pair.number = n then { pair with isOpen := false } else pair

/-- The children at the pairs with these numbers, each pair closed when it was looked at. -/
def drain : List Nat → List Pair → List Nat
  | [], _ => []
  | n :: rest, pairs => (holder pairs n).toList ++ drain rest (shut n pairs)

/-- Children that are open have pairs of their own. -/
def Apart (pairs : List Pair) : Prop :=
  ∀ i j (hi : i < pairs.length) (hj : j < pairs.length), pairs[i].isOpen = true →
    pairs[j].isOpen = true → pairs[i].number = pairs[j].number → i = j

variable {pairs : List Pair} {n m i : Nat}

theorem holder_eq_none_iff :
    holder pairs n = none ↔ ∀ pair ∈ pairs, pair.isOpen = true → pair.number ≠ n := by
  simp [holder, List.findIdx?_eq_none_iff]

theorem Apart.holder_eq_some_iff (hapart : Apart pairs) :
    holder pairs n = some i ↔
      ∃ hi : i < pairs.length, pairs[i].isOpen = true ∧ pairs[i].number = n := by
  unfold holder
  rw [List.findIdx?_eq_some_iff_getElem]
  constructor
  · rintro ⟨hi, hopen, -⟩
    exact ⟨hi, by simpa using hopen⟩
  · rintro ⟨hi, hopen, hnumber⟩
    refine ⟨hi, by simp [hopen, hnumber], fun j hji => ?_⟩
    have hne : j ≠ i := Nat.ne_of_lt hji
    simp only [Bool.and_eq_true, decide_eq_true_eq, not_and]
    intro hopen' hnumber'
    exact hne (hapart j i (by omega) hi hopen' hopen (hnumber'.trans hnumber.symm))

theorem holder_shut : holder (shut n pairs) m = if m = n then none else holder pairs m := by
  unfold holder shut
  rw [List.findIdx?_map]
  by_cases hm : m = n
  · rw [if_pos hm, List.findIdx?_eq_none_iff]
    intro pair _
    by_cases hpair : pair.number = n <;> simp [hpair, hm]
  · rw [if_neg hm]
    congr 1
    funext pair
    by_cases hpair : pair.number = n
    · simp [hpair, Ne.symm hm]
    · simp [hpair]

theorem holder_append (hfree : holder pairs n = none) :
    holder (pairs ++ [⟨true, n⟩]) m = if m = n then some pairs.length else holder pairs m := by
  unfold holder at hfree ⊢
  rw [List.findIdx?_append]
  by_cases hm : m = n
  · subst hm
    simp [hfree]
  · simp [hm, Ne.symm hm]

theorem Apart.shut (hapart : Apart pairs) : Apart (shut n pairs) := by
  intro i j hi hj hopeni hopenj hnumber
  simp only [Pair.shut, List.length_map, List.getElem_map] at hi hj hopeni hopenj hnumber
  by_cases hni : pairs[i].number = n
  · simp [hni] at hopeni
  · by_cases hnj : pairs[j].number = n
    · simp [hnj] at hopenj
    · simp only [if_neg hni, if_neg hnj] at hopeni hopenj hnumber
      exact hapart i j hi hj hopeni hopenj hnumber

theorem any_eq_isSome_holder :
    (pairs.any fun pair => pair.isOpen && pair.number = n) = (holder pairs n).isSome := by
  unfold holder
  rw [List.findIdx?_isSome]

/-- There are more numbers than children. -/
theorem exists_free (pairs : List Pair) : ∃ n ≤ pairs.length, holder pairs n = none := by
  by_contra hnone
  have hsubset : List.range (pairs.length + 1) ⊆ pairs.map Pair.number := by
    intro n hn
    have hheld : holder pairs n ≠ none := by
      intro hn'
      exact hnone ⟨n, Nat.le_of_lt_succ (List.mem_range.mp hn), hn'⟩
    by_contra hnot
    apply hheld
    rw [holder_eq_none_iff]
    intro pair hpair _ hnumber
    exact hnot (List.mem_map.mpr ⟨pair, hpair, hnumber⟩)
  have hle := (List.nodup_range.subperm hsubset).length_le
  simp at hle

theorem find?_free (pairs : List Pair) :
    ((List.range (pairs.length + 1)).find? fun n =>
      !pairs.any fun pair => pair.isOpen && pair.number = n) = some (free pairs) := by
  unfold free
  cases hfind : (List.range (pairs.length + 1)).find? fun n =>
      !pairs.any fun pair => pair.isOpen && pair.number = n with
  | some n => rfl
  | none =>
      obtain ⟨n, hle, hfree⟩ := exists_free pairs
      have hn := List.find?_eq_none.mp hfind n (List.mem_range.mpr (by omega))
      simp [any_eq_isSome_holder, hfree] at hn

theorem holder_free (pairs : List Pair) : holder pairs (free pairs) = none := by
  have hfree := (List.find?_range_eq_some.mp (find?_free pairs)).1
  simpa [any_eq_isSome_holder] using hfree

/-- The pairs below the first free one are held. -/
theorem holder_of_lt_free (hlt : n < free pairs) : ∃ child, holder pairs n = some child := by
  have hheld := (List.find?_range_eq_some.mp (find?_free pairs)).2.2 n hlt
  simpa [any_eq_isSome_holder, Option.isSome_iff_exists] using hheld

theorem Apart.append (hapart : Apart pairs) (hfree : holder pairs n = none) :
    Apart (pairs ++ [⟨true, n⟩]) := by
  have hother : ∀ i (hi : i < pairs.length), pairs[i].isOpen = true → pairs[i].number ≠ n :=
    fun i hi => holder_eq_none_iff.mp hfree _ (List.getElem_mem hi)
  intro i j hi hj hopeni hopenj hnumber
  simp only [List.length_append, List.length_singleton] at hi hj
  by_cases hi' : i < pairs.length
  · by_cases hj' : j < pairs.length
    · simp only [List.getElem_append_left hi', List.getElem_append_left hj'] at *
      exact hapart i j hi' hj' hopeni hopenj hnumber
    · obtain rfl : j = pairs.length := by omega
      simp only [List.getElem_append_left hi', List.getElem_concat_length] at *
      exact absurd hnumber (hother i hi' hopeni)
  · obtain rfl : i = pairs.length := by omega
    by_cases hj' : j < pairs.length
    · simp only [List.getElem_append_left hj', List.getElem_concat_length] at *
      exact absurd hnumber.symm (hother j hj' hopenj)
    · omega

/-- Each child whose number comes up is met once. -/
theorem mem_drain (hapart : Apart pairs) (numbers : List Nat) :
    (drain numbers pairs).Nodup ∧
      ∀ i, i ∈ drain numbers pairs ↔ ∃ n ∈ numbers, holder pairs n = some i := by
  induction numbers generalizing pairs with
  | nil => simp [drain]
  | cons n rest ih =>
      obtain ⟨hnodup, hmem⟩ := ih (hapart.shut (n := n))
      have hrest : ∀ i, i ∈ drain rest (shut n pairs) ↔
          ∃ m ∈ rest, m ≠ n ∧ holder pairs m = some i := by
        intro i
        rw [hmem]
        simp only [holder_shut]
        constructor
        · rintro ⟨m, hm, hheld⟩
          by_cases hmn : m = n
          · simp [hmn] at hheld
          · exact ⟨m, hm, hmn, by simpa [hmn] using hheld⟩
        · rintro ⟨m, hm, hmn, hheld⟩
          exact ⟨m, hm, by simpa [hmn] using hheld⟩
      constructor
      · apply List.Nodup.append (by cases holder pairs n <;> simp) hnodup
        intro i hi hi'
        obtain ⟨m, -, hmn, hheld⟩ := (hrest i).mp hi'
        have hn : holder pairs n = some i := by simpa using hi
        obtain ⟨_, -, hnumber⟩ := hapart.holder_eq_some_iff.mp hn
        obtain ⟨_, -, hnumber'⟩ := hapart.holder_eq_some_iff.mp hheld
        exact hmn (hnumber'.symm.trans hnumber)
      · intro i
        rw [drain, List.mem_append, hrest, Option.mem_toList]
        constructor
        · rintro (hn | ⟨m, hm, -, hheld⟩)
          · exact ⟨n, List.mem_cons_self, hn⟩
          · exact ⟨m, List.mem_cons_of_mem _ hm, hheld⟩
        · rintro ⟨m, hm, hheld⟩
          by_cases hmn : m = n
          · exact Or.inl (hmn ▸ hheld)
          · exact Or.inr ⟨m, (List.mem_cons.mp hm).resolve_left hmn, hmn, hheld⟩

end Pair

variable {f : Nat → Nat} {t : FileTable File} {s s' : Keeper} {pairs : List Pair} {n : Nat}

/-- Pair `n` is made of the free numbers `f (2 * n + 1)` and `f (2 * n + 2)`, the write end
to a child and the read end from it; `f 0` is always free. -/
structure Recycles (f : Nat → Nat) (t : FileTable File) (pairs : List Pair) : Prop where
  apart : Pair.Apart pairs
  first : t.lookup (f 0) = none
  command : ∀ n, t.lookup (f (2 * n + 1)) = (Pair.holder pairs n).map File.commandWrite
  reply : ∀ n, t.lookup (f (2 * n + 2)) = (Pair.holder pairs n).map File.replyRead
  other : ∀ fd, (∀ i, f i ≠ fd) → t.lookup fd ≠ none

namespace Recycles

theorem lookup_close_pair (hf : StrictMono f) (t : FileTable File) (a b i : Nat) :
    ((t.close (f a)).close (f b)).lookup (f i) =
      if i = a ∨ i = b then none else t.lookup (f i) := by
  simp only [FileTable.lookup_close, hf.injective.eq_iff]
  by_cases ha : i = a <;> by_cases hb : i = b <;> simp [ha, hb]

/-- Closing the numbers of a pair closes the pair. -/
theorem close (h : Recycles f t pairs) (hf : StrictMono f) (n : Nat) :
    Recycles f ((t.close (f (2 * n + 1))).close (f (2 * n + 2))) (Pair.shut n pairs) where
  apart := h.apart.shut
  first := by
    rw [lookup_close_pair hf, h.first]
    simp
  command m := by
    rw [lookup_close_pair hf, h.command, Pair.holder_shut]
    by_cases hm : m = n
    · simp [hm]
    · rw [if_neg (by omega), if_neg hm]
  reply m := by
    rw [lookup_close_pair hf, h.reply, Pair.holder_shut]
    by_cases hm : m = n
    · simp [hm]
    · rw [if_neg (by omega), if_neg hm]
  other fd hfd := by
    rw [FileTable.lookup_close, FileTable.lookup_close, if_neg (Ne.symm (hfd _)),
      if_neg (Ne.symm (hfd _))]
    exact h.other fd hfd

/-- Below the first free pair only `f 0` is free. -/
theorem lookup_below (h : Recycles f t pairs) (hf : StrictMono f) {fd : Nat}
    (hlt : fd < f (2 * Pair.free pairs + 1)) (hfd : fd ≠ f 0) : t.lookup fd ≠ none := by
  by_cases hrange : ∃ i, f i = fd
  · obtain ⟨i, rfl⟩ := hrange
    have hi : i < 2 * Pair.free pairs + 1 := hf.lt_iff_lt.mp hlt
    have hi0 : i ≠ 0 := fun h0 => hfd (h0 ▸ rfl)
    have hbelow : (i - 1) / 2 < Pair.free pairs := by omega
    obtain ⟨child, hheld⟩ := Pair.holder_of_lt_free hbelow
    rcases Nat.mod_two_eq_zero_or_one (i - 1) with heven | hodd
    · have hindex : i = 2 * ((i - 1) / 2) + 1 := by omega
      rw [hindex, h.command, hheld]
      simp
    · have hindex : i = 2 * ((i - 1) / 2) + 2 := by omega
      rw [hindex, h.reply, hheld]
      simp
  · exact h.other fd (not_exists.mp hrange)

theorem lowest (h : Recycles f t pairs) (hf : StrictMono f) : t.lowest = f 0 := by
  apply FileTable.lowest_eq h.first
  intro fd hlt
  exact h.other fd fun i hi => absurd (hf.monotone (Nat.zero_le i)) (by omega)

/-- The numbers of the second and the third file. -/
theorem lowest_opened (h : Recycles f t pairs) (hf : StrictMono f) (one two : File) :
    (t.opened one).lowest = f (2 * Pair.free pairs + 1) ∧
      ((t.opened one).opened two).lowest = f (2 * Pair.free pairs + 2) := by
  have hfirst := h.lowest hf
  have hne : ∀ i, f (i + 1) ≠ f 0 := fun i heq => Nat.succ_ne_zero i (hf.injective heq)
  have hsecond : (t.opened one).lowest = f (2 * Pair.free pairs + 1) := by
    apply FileTable.lowest_eq
    · rw [FileTable.lookup_opened, hfirst, if_neg (hne _), h.command, Pair.holder_free]
      rfl
    · intro fd hlt
      rw [FileTable.lookup_opened, hfirst]
      by_cases hfd : fd = f 0
      · simp [hfd]
      · rw [if_neg hfd]
        exact h.lookup_below hf hlt hfd
  refine ⟨hsecond, ?_⟩
  apply FileTable.lowest_eq
  · have hdiff : f (2 * Pair.free pairs + 2) ≠ f (2 * Pair.free pairs + 1) :=
      fun heq => by have := hf.injective heq; omega
    rw [FileTable.lookup_opened, hsecond, if_neg hdiff, FileTable.lookup_opened, hfirst,
      if_neg (hne _), h.reply, Pair.holder_free]
    rfl
  · intro fd hlt
    rw [FileTable.lookup_opened, hsecond, FileTable.lookup_opened, hfirst]
    by_cases hfd : fd = f (2 * Pair.free pairs + 1)
    · simp [hfd]
    · by_cases hfd' : fd = f 0
      · simp [hfd', (hne _).symm]
      · rw [if_neg hfd, if_neg hfd']
        by_cases hbelow : fd < f (2 * Pair.free pairs + 1)
        · exact h.lookup_below hf hbelow hfd'
        · apply h.other
          rintro i rfl
          have hlow : 2 * Pair.free pairs + 1 ≤ i := hf.le_iff_le.mp (Nat.le_of_not_lt hbelow)
          have hhigh : i < 2 * Pair.free pairs + 2 := hf.lt_iff_lt.mp hlt
          exact hfd (congrArg f (by omega))

end Recycles

namespace Keeper

@[simp] theorem table_write (s : Keeper) (fd : Nat) (bytes : List Char) :
    (s.write fd bytes).table = s.table := by
  unfold write
  split <;> rfl

@[simp] theorem children_write (s : Keeper) (fd : Nat) (bytes : List Char) :
    (s.write fd bytes).children = s.children := by
  unfold write
  split <;> rfl

/-- What a `spawn` leaves open: one end of each of the two pipes, at the first free pair. -/
theorem lookup_createService (h : Recycles f s.table pairs) (hf : StrictMono f)
    (serviceName : List Char) (fd : Nat) :
    (s.createService serviceName).table.lookup fd =
      if fd = f (2 * Pair.free pairs + 2) then some (.replyRead s.children.length)
      else if fd = f (2 * Pair.free pairs + 1) then some (.commandWrite s.children.length)
      else s.table.lookup fd := by
  obtain ⟨hsecond, hthird⟩ := h.lowest_opened hf (.commandRead s.children.length)
    (.commandWrite s.children.length)
  have hfirst := h.lowest hf
  simp only [createService, pipe, close, table_write]
  rw [FileTable.lookup_close, FileTable.lookup_close_opened, FileTable.lookup_opened, hthird,
    FileTable.lookup_opened, hsecond, FileTable.lookup_opened, hfirst]
  by_cases hfd : fd = f 0
  · rw [if_pos hfd, hfd, if_neg (fun heq => by have := hf.injective heq; omega),
      if_neg (fun heq => by have := hf.injective heq; omega), h.first]
  · rw [if_neg hfd, if_neg hfd]

theorem children_createService (h : Recycles f s.table pairs) (hf : StrictMono f)
    (serviceName : List Char) :
    (s.createService serviceName).children =
      s.children ++ [⟨false, f (2 * Pair.free pairs + 2), f (2 * Pair.free pairs + 1)⟩] := by
  obtain ⟨hsecond, hthird⟩ := h.lowest_opened hf (.commandRead s.children.length)
    (.commandWrite s.children.length)
  simp only [createService, pipe, close, children_write, hsecond, hthird]

end Keeper

/-- What a service keeps of its children, by their pairs. -/
def Pair.service (f : Nat → Nat) (pair : Pair) : Service :=
  ⟨!pair.isOpen, f (2 * pair.number + 2), f (2 * pair.number + 1)⟩

/-- The list of a service and its descriptors are those of the pairs of its children. -/
structure Paired (f : Nat → Nat) (s : Keeper) (pairs : List Pair) : Prop where
  recycles : Recycles f s.table pairs
  children : s.children = pairs.map (Pair.service f)

namespace Paired

theorem createService (h : Paired f s pairs) (hf : StrictMono f) (serviceName : List Char) :
    Paired f (s.createService serviceName) (pairs ++ [⟨true, Pair.free pairs⟩]) := by
  have hlookup := Keeper.lookup_createService h.recycles hf serviceName
  have hlength : s.children.length = pairs.length := by rw [h.children, List.length_map]
  have hholder := fun n => Pair.holder_append (m := n) (Pair.holder_free pairs)
  have hinj : ∀ {a b}, f a = f b ↔ a = b := hf.injective.eq_iff
  constructor
  · constructor
    · exact h.recycles.apart.append (Pair.holder_free pairs)
    · rw [hlookup]
      simpa [hinj] using h.recycles.first
    · intro n
      simp only [hlookup, hholder, hinj, h.recycles.command, hlength]
      by_cases hn : n = Pair.free pairs
      · simp [hn]
      · rw [if_neg (by omega), if_neg (by omega), if_neg hn]
    · intro n
      simp only [hlookup, hholder, hinj, h.recycles.reply, hlength]
      by_cases hn : n = Pair.free pairs
      · simp [hn]
      · rw [if_neg (by omega), if_neg (by omega), if_neg hn]
    · intro fd hfd
      rw [hlookup, if_neg (Ne.symm (hfd _)), if_neg (Ne.symm (hfd _))]
      exact h.recycles.other fd hfd
  · rw [Keeper.children_createService h.recycles hf, h.children, List.map_append]
    rfl

/-- A child that is killed gives its pair back. -/
theorem remove (h : Paired f s pairs) (hf : StrictMono f) {child : Nat}
    (hremove : s.remove child = some s') :
    ∃ n, Paired f s' (Pair.shut n pairs) := by
  unfold Keeper.remove at hremove
  split at hremove
  · cases hremove
  · rename_i tmp htmp
    split at hremove
    · cases hremove
    · rename_i hmark
      have hchild : child < pairs.length := by
        have hlt := (List.getElem?_eq_some_iff.mp htmp).1
        rwa [h.children, List.length_map] at hlt
      have hservice : tmp = (pairs[child]).service f := by
        simpa [h.children, List.getElem?_eq_getElem hchild] using htmp.symm
      subst hservice
      have hopen : pairs[child].isOpen = true := by simpa [Pair.service] using hmark
      refine ⟨pairs[child].number, ?_⟩
      obtain rfl := Option.some.inj hremove
      constructor
      · exact h.recycles.close hf _
      · simp only [Keeper.close, h.children, Pair.shut, List.map_map]
        apply List.ext_getElem (by simp)
        intro i hi _
        have hlt : i < pairs.length := by simpa using hi
        simp only [List.getElem_map, Function.comp, List.getElem_set]
        by_cases hci : child = i
        · subst hci
          simp [Pair.service]
        · rw [if_neg hci]
          by_cases hnumber : pairs[i].number = pairs[child].number
          · -- a child at the pair of an open one has been killed before
            have hshut : pairs[i].isOpen = false := by
              by_contra hother
              have hsame := h.recycles.apart i child _ hchild (by simpa using hother) hopen hnumber
              exact hci hsame.symm
            simp [hnumber, hshut, Pair.service]
          · rw [if_neg hnumber]

/-- One round of the "dead" loop reaches whoever holds the pair, and closes it. -/
theorem dead {s : Keeper} (h : Recycles f s.table pairs) (hf : StrictMono f) (pair : Pair) :
    (s.dead (pair.service f)).written = s.written ++
        (Pair.holder pairs pair.number).toList.map (fun child => (.commandWrite child, deadText)) ∧
      Recycles f (s.dead (pair.service f)).table (Pair.shut pair.number pairs) := by
  constructor
  · simp only [Keeper.dead, Keeper.close, Keeper.write, Pair.service, h.command]
    cases Pair.holder pairs pair.number <;> simp
  · simp only [Keeper.dead, Keeper.close, Keeper.table_write]
    exact h.close hf pair.number

theorem deadLoop {s : Keeper} (h : Recycles f s.table pairs) (hf : StrictMono f)
    (rest : List Pair) :
    ((rest.map (Pair.service f)).foldl Keeper.dead s).written = s.written ++
      (Pair.drain (rest.map Pair.number) pairs).map fun child =>
        (.commandWrite child, deadText) := by
  induction rest generalizing s pairs with
  | nil => simp [Pair.drain]
  | cons pair rest ih =>
      obtain ⟨hwritten, hrecycles⟩ := dead h hf pair
      simp only [List.map_cons, List.foldl_cons, Pair.drain, List.map_append]
      rw [ih hrecycles, hwritten, List.append_assoc]

theorem mem_unmarked (h : Paired f s pairs) {child : Nat} :
    child ∈ s.unmarked ↔ ∃ hchild : child < pairs.length, pairs[child].isOpen = true := by
  simp only [Keeper.unmarked, h.children, List.length_map, List.mem_filter, List.mem_range,
    decide_eq_true_eq]
  constructor
  · rintro ⟨hchild, hmark⟩
    exact ⟨hchild, by simpa [hchild, Pair.service] using hmark⟩
  · rintro ⟨hchild, hopen⟩
    exact ⟨hchild, by simp [hchild, hopen, Pair.service]⟩

/-- The children that the loop reaches are the ones that are not marked. -/
theorem drain_perm (h : Paired f s pairs) :
    (Pair.drain (pairs.map Pair.number) pairs).Perm s.unmarked := by
  obtain ⟨hnodup, hmem⟩ := Pair.mem_drain h.recycles.apart (pairs.map Pair.number)
  have hunmarked : s.unmarked.Nodup := List.nodup_range.filter _
  rw [List.perm_ext_iff_of_nodup hnodup hunmarked]
  intro child
  rw [hmem, h.mem_unmarked]
  constructor
  · rintro ⟨n, -, hheld⟩
    obtain ⟨hchild, hopen, -⟩ := h.recycles.apart.holder_eq_some_iff.mp hheld
    exact ⟨hchild, hopen⟩
  · rintro ⟨hchild, hopen⟩
    refine ⟨pairs[child].number, List.mem_map_of_mem (List.getElem_mem hchild), ?_⟩
    exact h.recycles.apart.holder_eq_some_iff.mpr ⟨hchild, hopen, rfl⟩

end Paired

theorem reachable_paired {serviceName : List Char}
    (hreach : (descriptors serviceName).Reachable s) :
    ∃ f pairs, StrictMono f ∧ Paired f s pairs := by
  refine hreach.invariant (P := fun s => ∃ f pairs, StrictMono f ∧ Paired f s pairs) ?_ ?_
  · rintro s ⟨hchildren, -, -, hfiles⟩
    obtain ⟨f, hf, hfree⟩ := s.table.exists_enumeration
    refine ⟨f, [], hf, ⟨?_, hchildren⟩⟩
    constructor
    · intro i j hi
      simp at hi
    · exact (hfree _).mpr ⟨0, rfl⟩
    · exact fun n => (hfree _).mpr ⟨_, rfl⟩
    · exact fun n => (hfree _).mpr ⟨_, rfl⟩
    · exact fun fd hfd hnone => not_exists.mpr hfd ((hfree fd).mp hnone)
  · rintro s change s' ⟨f, pairs, hf, h⟩ hstep
    cases change with
    | spawn =>
        obtain rfl := Option.some.inj hstep
        exact ⟨f, _, hf, h.createService hf serviceName⟩
    | kill child =>
        obtain ⟨n, hpaired⟩ := h.remove hf hstep
        exact ⟨f, _, hf, hpaired⟩

/-- Whatever has been spawned and killed, the numbers of a child that is not marked are its
own pipes, and the "dead" loop writes to each of these children once and to nothing else. -/
theorem dead_reaches_unmarked {serviceName : List Char}
    (hreach : (descriptors serviceName).Reachable s) :
    (∀ child tmp, s.children[child]? = some tmp → tmp.haveKilled = false →
      s.table.lookup tmp.writeFd = some (.commandWrite child) ∧
        s.table.lookup tmp.readFd = some (.replyRead child)) ∧
    ∃ reached : List Nat, reached.Perm s.unmarked ∧
      s.deadLoop.written = s.written ++
        reached.map fun child => (.commandWrite child, deadText) := by
  obtain ⟨f, pairs, hf, h⟩ := reachable_paired hreach
  constructor
  · intro child tmp htmp hmark
    rw [h.children, List.getElem?_map, Option.map_eq_some_iff] at htmp
    obtain ⟨pair, hpair, rfl⟩ := htmp
    obtain ⟨hchild, rfl⟩ := List.getElem?_eq_some_iff.mp hpair
    have hheld : Pair.holder pairs pairs[child].number = some child :=
      h.recycles.apart.holder_eq_some_iff.mpr ⟨hchild, by simpa [Pair.service] using hmark, rfl⟩
    exact ⟨by rw [Pair.service, h.recycles.command, hheld]; rfl,
      by rw [Pair.service, h.recycles.reply, hheld]; rfl⟩
  · refine ⟨Pair.drain (pairs.map Pair.number) pairs, h.drain_perm, ?_⟩
    unfold Keeper.deadLoop
    rw [h.children]
    exact Paired.deadLoop h.recycles hf pairs

namespace Recycled

/-- A service with one more open file than its own five. -/
def start : Keeper where
  table := ⟨[some .other, some .other, some .other, some .other, some .other, none, some .other]⟩
  children := []
  written := []

/-- Two children, of which the first is killed, and a third one. -/
def changes : List Change := [.spawn, .spawn, .kill 0, .spawn]

def state : Keeper := ((descriptors ['P']).run start changes).getD start

theorem start_start : (descriptors ['P']).start start := by
  refine ⟨rfl, rfl, by decide, fun fd => ?_⟩
  by_cases hfd : fd < 7
  · exact (by decide : ∀ fd < 7, start.table.lookup fd = none ∨
      start.table.lookup fd = some .other) fd hfd
  · exact Or.inl (List.getD_eq_default _ _ (Nat.le_of_not_lt hfd))

theorem reachable : (descriptors ['P']).Reachable state :=
  TransitionSystem.Reachable.run (.start start_start) changes rfl

end Recycled

theorem dead_reaches_unmarked_recycled :
    Recycled.state.children.map Service.writeFd = [7, 9, 7] ∧
      ∃ reached : List Nat, reached.Perm [1, 2] ∧
        Recycled.state.deadLoop.written = Recycled.state.written ++
          reached.map fun child => (.commandWrite child, deadText) :=
  ⟨by decide, (dead_reaches_unmarked Recycled.reachable).2⟩

end Services

end SystemsProgramming
