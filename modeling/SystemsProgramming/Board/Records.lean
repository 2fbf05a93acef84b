/-
The record that the parser builds from a post that fits, and what is read back from it:
whatever the uninitialised bytes are, the two strings are the ones that were typed.
-/
import SystemsProgramming.Board.Model

namespace SystemsProgramming

namespace Board

open FlatBytes

variable {tmp : Record} {line sender content : List Char}

/-- The bytes of a stored record with these two strings. -/
def Stores (bytes : List Char) (sender content : List Char) : Prop :=
  ∃ x y, bytes = sender ++ nul :: x ++ (content ++ nul :: y) ∧
    (sender ++ nul :: x).length = fromLen

/-- A line that leaves room for its NUL is copied as it is. -/
theorem Record.copyLine_line (tmp : Record) (o : Nat) (hline : '\n' ∉ line)
    (rest : List Char) (hfits : o + line.length < recordSize) :
    ∃ next, tmp.copyLine o (line ++ '\n' :: rest) = some (next, some (o + line.length)) ∧
      next.bytes =
        tmp.bytes.take o ++ line ++ nul :: tmp.bytes.drop (o + line.length + 1) := by
  have hlength := tmp.length_bytes
  induction line generalizing o tmp with
  | nil =>
      have ho : o < recordSize := hfits
      refine ⟨⟨tmp.bytes.set o nul, by simp [tmp.length_bytes]⟩, ?_, ?_⟩
      · simp [copyLine, put, ho]
      · simp [List.set_eq_take_append_cons_drop, hlength, ho]
  | cons c line ih =>
      have hc : c ≠ '\n' := fun h => hline (h ▸ List.mem_cons_self)
      have hrest : '\n' ∉ line := fun h => hline (List.mem_cons_of_mem _ h)
      rw [List.length_cons] at hfits
      have ho : o < recordSize := by omega
      have hset : (tmp.bytes.set o c).length = recordSize := by simp [hlength]
      obtain ⟨next, hcopy, hbytes⟩ := ih ⟨tmp.bytes.set o c, hset⟩ (o + 1) hrest
        (by omega) hset
      refine ⟨next, ?_, ?_⟩
      · rw [List.cons_append, copyLine, if_pos hc, put, if_pos ho, Option.bind_some, hcopy,
          List.length_cons, Nat.add_right_comm, Nat.add_assoc]
      · rw [hbytes]
        have htake : (tmp.bytes.set o c).take (o + 1) = tmp.bytes.take o ++ [c] := by
          rw [List.take_add_one, List.take_set_of_le (Nat.le_refl o)]
          simp [hlength, ho]
        have hdrop : (tmp.bytes.set o c).drop (o + 1 + line.length + 1) =
            tmp.bytes.drop (o + (c :: line).length + 1) := by
          rw [List.drop_set_of_lt (by omega), List.length_cons]
          congr 1
          omega
        rw [htake, hdrop]
        simp

/-- The parser of a post whose two lines fit their fields. -/
theorem parsePost_fits (tmp : Record) (j : Int) (hsender : '\n' ∉ sender)
    (hcontent : '\n' ∉ content) (hfrom : sender.length < fromLen)
    (hlen : content.length < contentLen) :
    ∃ record, parsePost tmp j (Request.post sender content).bytes = some record ∧
      Stores record.bytes sender content := by
  have hsize : recordSize = fromLen + contentLen := rfl
  obtain ⟨first, hcopy, hfirst⟩ := tmp.copyLine_line 0 hsender (content ++ ['\n']) (by omega)
  obtain ⟨record, hcopy', hrecord⟩ := first.copyLine_line fromLen hcontent [] (by omega)
  have htext : (Request.post sender content).bytes.drop (sender.length + 1) =
      content ++ ['\n'] := by
    simp [Request.bytes, List.drop_append]
  refine ⟨record, ?_, ?_⟩
  · have hbytes : (Request.post sender content).bytes =
        sender ++ '\n' :: (content ++ ['\n']) := by
      simp [Request.bytes]
    rw [parsePost, hbytes, hcopy, Option.bind_some]
    rw [hbytes] at htext
    simp only [Nat.zero_add, Option.map_some, Option.getD_some]
    have hnonneg : ¬ (Int.ofNat sender.length + 1 < 0) := by
      simp only [Int.ofNat_eq_natCast]
      omega
    have htoNat : (Int.ofNat sender.length + 1).toNat = sender.length + 1 := rfl
    rw [if_neg hnonneg, htoNat, htext, hcopy']
    rfl
  · have htake : first.bytes.take fromLen = sender ++
        nul :: (tmp.bytes.drop (sender.length + 1)).take (fromLen - (sender.length + 1)) := by
      have hsucc : fromLen - sender.length = fromLen - (sender.length + 1) + 1 := by omega
      rw [hfirst, List.take_zero, List.nil_append, Nat.zero_add, List.take_append,
        List.take_of_length_le (by omega), hsucc, List.take_succ_cons]
    refine ⟨(tmp.bytes.drop (sender.length + 1)).take (fromLen - (sender.length + 1)),
      first.bytes.drop (fromLen + content.length + 1), ?_, ?_⟩
    · rw [hrecord, htake, List.append_assoc]
    · have hlength := tmp.length_bytes
      simp only [List.length_append, List.length_cons, List.length_take, List.length_drop]
      omega

theorem Stores.cString_sender {bytes : List Char} (hstores : Stores bytes sender content)
    (hfree : nul ∉ sender) (rest : List Char) : cString (bytes ++ rest) 0 = sender := by
  obtain ⟨x, y, rfl, -⟩ := hstores
  rw [cString, terminated, List.drop_zero, List.append_assoc, List.append_assoc,
    List.cons_append]
  exact takeWhile_append_stop hfree _

theorem Stores.cString_content {bytes : List Char} (hstores : Stores bytes sender content)
    (hfree : nul ∉ content) (rest : List Char) :
    cString (bytes ++ rest) fromLen = content := by
  obtain ⟨x, y, rfl, hlength⟩ := hstores
  rw [cString, terminated, List.append_assoc, ← hlength, List.drop_left, List.append_assoc,
    List.cons_append]
  exact takeWhile_append_stop hfree _

end Board

end SystemsProgramming
