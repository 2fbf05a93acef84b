/-
A file or a memory as a list of cells, cut into blocks of equal size: overwriting at
an offset, and the strings that a terminator ends.
-/
import Mathlib.Data.List.TakeWhile
import Mathlib.Data.List.GetD

namespace SystemsProgramming

namespace FlatBytes

universe u

variable {α : Type u}

/-- Write `chunk` at `offset`; a gap behind the end is filled with `pad`. -/
def overwrite (pad : α) (bytes : List α) (offset : Nat) (chunk : List α) : List α :=
  bytes.take offset ++ List.replicate (offset - bytes.length) pad ++ chunk ++
    bytes.drop (offset + chunk.length)

theorem length_head (pad : α) (bytes : List α) (offset : Nat) :
    (bytes.take offset ++ List.replicate (offset - bytes.length) pad).length = offset := by
  simp only [List.length_append, List.length_take, List.length_replicate]
  omega

/-- A cell after a write, with `pad` read behind the end. -/
theorem getD_overwrite (pad : α) (bytes : List α) (offset : Nat) (chunk : List α) (o : Nat) :
    (overwrite pad bytes offset chunk).getD o pad =
      if offset ≤ o ∧ o < offset + chunk.length then chunk.getD (o - offset) pad
      else bytes.getD o pad := by
  have hhead := length_head pad bytes offset
  unfold overwrite
  by_cases hbefore : o < offset
  · have hnot : ¬ (offset ≤ o ∧ o < offset + chunk.length) := by omega
    rw [if_neg hnot, List.append_assoc, List.getD_append _ _ _ _ (by omega)]
    by_cases hin : o < bytes.length
    · rw [List.getD_append _ _ _ _ (by simp; omega), List.getD_eq_getElem?_getD,
        List.getD_eq_getElem?_getD, List.getElem?_take_of_lt hbefore]
    · rw [List.getD_append_right _ _ _ _ (by simp; omega),
        List.getD_eq_default bytes _ (by omega), List.getD_eq_getElem?_getD,
        List.getElem?_replicate]
      split <;> rfl
  · rw [List.append_assoc, List.getD_append_right _ _ _ _ (by omega), hhead]
    by_cases hin : o < offset + chunk.length
    · rw [if_pos ⟨by omega, hin⟩, List.getD_append _ _ _ _ (by omega)]
    · have hnot : ¬ (offset ≤ o ∧ o < offset + chunk.length) := by omega
      rw [if_neg hnot, List.getD_append_right _ _ _ _ (by omega), List.getD_eq_getElem?_getD,
        List.getD_eq_getElem?_getD, List.getElem?_drop]
      congr 2
      omega

theorem length_overwrite_max (pad : α) (bytes : List α) (offset : Nat) (chunk : List α) :
    (overwrite pad bytes offset chunk).length = max bytes.length (offset + chunk.length) := by
  have hhead := length_head pad bytes offset
  unfold overwrite
  rw [List.length_append, List.length_append, hhead, List.length_drop]
  omega

theorem length_overwrite (pad : α) {bytes : List α} {offset : Nat} {chunk : List α}
    (hfits : offset + chunk.length ≤ bytes.length) :
    (overwrite pad bytes offset chunk).length = bytes.length := by
  rw [length_overwrite_max, Nat.max_eq_left hfits]

/-- The `i`-th block of `size` cells, with `pad` read behind the end. -/
def block (pad : α) (bytes : List α) (size i : Nat) : List α :=
  (List.range size).map fun o => bytes.getD (size * i + o) pad

@[simp] theorem length_block (pad : α) (bytes : List α) (size i : Nat) :
    (block pad bytes size i).length = size := by
  simp [block]

theorem block_eq_block_iff {pad : α} {bytes other : List α} {size i : Nat} :
    block pad bytes size i = block pad other size i ↔
      ∀ o < size, bytes.getD (size * i + o) pad = other.getD (size * i + o) pad := by
  simp [block]

/-- The block that is written. -/
theorem block_overwrite_self (pad : α) (bytes chunk : List α) (i : Nat) :
    block pad (overwrite pad bytes (chunk.length * i) chunk) chunk.length i = chunk := by
  apply List.ext_getElem (by simp)
  intro o hleft hright
  have ho : o < chunk.length := hright
  simp only [block, List.getElem_map, List.getElem_range]
  rw [getD_overwrite, if_pos ⟨by omega, by omega⟩, Nat.add_sub_cancel_left,
    List.getD_eq_getElem _ _ ho]

/-- The other blocks. -/
theorem block_overwrite_of_ne (pad : α) (bytes chunk : List α) {i j : Nat} (hne : j ≠ i) :
    block pad (overwrite pad bytes (chunk.length * i) chunk) chunk.length j =
      block pad bytes chunk.length j := by
  rw [block_eq_block_iff]
  intro o ho
  rw [getD_overwrite, if_neg]
  rintro ⟨hle, hlt⟩
  apply hne
  rcases Nat.lt_or_gt_of_ne hne with h | h
  · have := Nat.mul_le_mul_left chunk.length (show j + 1 ≤ i from h)
    rw [Nat.mul_add] at this
    omega
  · have := Nat.mul_le_mul_left chunk.length (show i + 1 ≤ j from h)
    rw [Nat.mul_add] at this
    omega

/-- A block of the part that a read has filled. -/
theorem block_append_of_le (pad : α) {bytes : List α} (rest : List α) {size i : Nat}
    (hinside : size * i + size ≤ bytes.length) :
    block pad (bytes ++ rest) size i = block pad bytes size i := by
  rw [block_eq_block_iff]
  intro o ho
  exact List.getD_append _ _ _ _ (by omega)

/-- A block behind the part that a read has filled. -/
theorem block_append_drop_of_le (pad : α) {bytes : List α} (rest : List α) {size i : Nat}
    (hbehind : bytes.length ≤ size * i) :
    block pad (bytes ++ rest.drop bytes.length) size i = block pad rest size i := by
  rw [block_eq_block_iff]
  intro o ho
  rw [List.getD_append_right _ _ _ _ (by omega), List.getD_eq_getElem?_getD,
    List.getD_eq_getElem?_getD, List.getElem?_drop]
  congr 2
  omega

theorem block_drop (pad : α) (bytes : List α) (size m i : Nat) :
    block pad (bytes.drop (size * m)) size i = block pad bytes size (m + i) := by
  apply List.map_congr_left
  intro o ho
  rw [List.getD_eq_getElem?_getD, List.getD_eq_getElem?_getD, List.getElem?_drop, Nat.mul_add,
    Nat.add_assoc]

/-- From a block that lies inside on, the cells are this block and what follows it. -/
theorem drop_eq_block_append (pad : α) {bytes : List α} {size i : Nat}
    (hinside : size * i + size ≤ bytes.length) :
    bytes.drop (size * i) = block pad bytes size i ++ bytes.drop (size * i + size) := by
  have hblock : (bytes.drop (size * i)).take size = block pad bytes size i := by
    apply List.ext_getElem
    · simp
      omega
    · intro o hleft hright
      have ho : o < size := by simpa using hright
      simp only [List.getElem_take, List.getElem_drop, block, List.getElem_map,
        List.getElem_range]
      rw [List.getD_eq_getElem _ _ (by omega)]
  rw [← hblock, ← List.drop_drop]
  exact (List.take_append_drop size _).symm

/-- A write of the cells that a block inside has changes nothing. -/
theorem overwrite_block_self (pad : α) {bytes : List α} {size i : Nat}
    (hinside : size * i + size ≤ bytes.length) :
    overwrite pad bytes (size * i) (block pad bytes size i) = bytes := by
  have hgap : size * i - bytes.length = 0 := by omega
  rw [overwrite, hgap, length_block, List.replicate_zero, List.append_nil, List.append_assoc,
    ← drop_eq_block_append pad hinside, List.take_append_drop]

variable [DecidableEq α]

/-- The string at `offset` that the first `stop` ends. -/
def terminated (stop : α) (bytes : List α) (offset : Nat) : List α :=
  (bytes.drop offset).takeWhile (· ≠ stop)

theorem takeWhile_append_stop {stop : α} {text : List α} (hfree : stop ∉ text)
    (rest : List α) : (text ++ stop :: rest).takeWhile (· ≠ stop) = text := by
  induction text with
  | nil => simp
  | cons c text ih =>
      have hc : c ≠ stop := fun h => hfree (h ▸ List.mem_cons_self)
      have hrest : stop ∉ text := fun h => hfree (List.mem_cons_of_mem _ h)
      rw [List.cons_append, List.takeWhile_cons_of_pos (by simpa using hc), ih hrest]

theorem takeWhile_eq_self_of_free {stop : α} {text : List α} (hfree : stop ∉ text) :
    text.takeWhile (· ≠ stop) = text := by
  rw [List.takeWhile_eq_self_iff]
  intro c hc
  have hne : c ≠ stop := fun h => hfree (h ▸ hc)
  simpa using hne

theorem notMem_terminated (stop : α) (bytes : List α) (offset : Nat) :
    stop ∉ terminated stop bytes offset := by
  intro hmem
  simpa using List.mem_takeWhile_imp hmem

theorem terminated_of_free {stop : α} {text : List α} (hfree : stop ∉ text) :
    terminated stop text 0 = text :=
  takeWhile_eq_self_of_free hfree

end FlatBytes

end SystemsProgramming
