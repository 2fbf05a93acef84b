/-
The way of a name in `service.c`, from the buffer of the Manager to the `service` of the
parent and to the `service_name` of the new process.
-/
import SystemsProgramming.FlatBytes
import SystemsProgramming.Services.Network

namespace SystemsProgramming

namespace Services

/-- A piece of memory of a fixed size. -/
structure Bytes (n : Nat) where
  cells : List Char
  length_eq : cells.length = n

namespace Bytes

/-- A write that starts at `offset`; `none` says that it leaves the piece. -/
def write {n : Nat} (b : Bytes n) (offset : Nat) (chunk : List Char) : Option (Bytes n) :=
  if hfits : offset + chunk.length ≤ n then
    some ⟨FlatBytes.overwrite nul b.cells offset chunk, by
      rw [FlatBytes.length_overwrite nul (by rw [b.length_eq]; exact hfits), b.length_eq]⟩
  else none

theorem exists_write {n : Nat} (b : Bytes n) {offset : Nat} {chunk : List Char}
    (hfits : offset + chunk.length ≤ n) :
    ∃ b', b.write offset chunk = some b' ∧
      b'.cells = b.cells.take offset ++ chunk ++ b.cells.drop (offset + chunk.length) := by
  have hlength := b.length_eq
  have hinside : offset - b.cells.length = 0 := by omega
  refine ⟨_, dif_pos hfits, ?_⟩
  simp [FlatBytes.overwrite, hinside]

end Bytes

/-- `scanf("%s", child_name)`, and the string that is in the buffer then. -/
def scanName (childName : Bytes 20) (word : List Char) : Option (List Char) :=
  (childName.write 0 (word ++ [nul])).map fun childName => cString childName.cells

/-- What `create_service` writes to the `name` of the `service` and to `have_killed`, which
lies behind its 16 bytes. -/
def nameService (newService : Bytes 20) (childName : List Char) : Option (Bytes 20) :=
  (newService.write 16 (List.replicate 4 nul)).bind fun newService =>
    newService.write 0 (childName ++ [nul])

/-- `strncpy(service_name, argv[1], MAX_SERVICE_NAME_LEN)`. -/
def ownName (argv : List Char) : List Char := (argv ++ List.replicate 16 nul).take 16

/-- `have_killed` as a number. -/
def haveKilled (service : Bytes 20) : Nat :=
  (service.cells.drop 16).foldr (fun c n => c.toNat + 256 * n) 0

/-- What a process has for the name of the service that a message is about. -/
def Wanted (serviceName : List Char) (name : List Char) : Prop :=
  ∀ other, ' ' ∉ other →
    word 1 0 (spawnText name other) = cString serviceName ∧
      word 1 0 (findText name) = cString serviceName ∧
      word 1 0 (killText name) = cString serviceName ∧
      word 2 0 (exchangeText other name) = cString serviceName

/-- After a `spawn` of `name` the entry of the parent is not marked and has this name, and the
process of the child has it as a string by which the next command finds it. -/
def Addressable (childName newService : Bytes 20) (name : List Char) : Prop :=
  ∃ passed, scanName childName name = some passed ∧
    ∃ service, nameService newService passed = some service ∧
      haveKilled service = 0 ∧ cString service.cells = name ∧
      nul ∈ ownName passed ∧ cString (ownName passed) = name ∧
      Wanted (ownName passed) name

section Words

variable {k cntSpace : Nat} {text : List Char}

theorem word_of_noSpace (hspace : ' ' ∉ text) :
    word k cntSpace text = if cntSpace = k then text else [] := by
  induction text with
  | nil => simp [word]
  | cons c text ih =>
      have hc : c ≠ ' ' := fun h => hspace (h ▸ List.mem_cons_self)
      have hrest := ih fun h => hspace (List.mem_cons_of_mem c h)
      unfold word
      by_cases hk : cntSpace = k
      · subst hk
        simp [hc, hrest]
      · simp [hc, hk, hrest]

theorem word_append_space (hspace : ' ' ∉ text) (rest : List Char) :
    word k cntSpace (text ++ ' ' :: rest) =
      (if cntSpace = k then text else []) ++ word k (cntSpace + 1) rest := by
  induction text with
  | nil => simp [word]
  | cons c text ih =>
      have hc : c ≠ ' ' := fun h => hspace (h ▸ List.mem_cons_self)
      have hrest := ih fun h => hspace (List.mem_cons_of_mem c h)
      rw [List.cons_append, word]
      by_cases hk : cntSpace = k
      · subst hk
        simp [hc, hrest]
      · simp [hc, hk, hrest]

variable {verb a b : List Char}

/-- The word of a command with one name. -/
theorem word_one_name (hverb : ' ' ∉ verb) (ha : ' ' ∉ a) :
    word 1 0 (verb ++ ' ' :: a) = a := by
  rw [word_append_space hverb, word_of_noSpace ha]
  simp

/-- The words of a command with two names. -/
theorem word_two_names (hverb : ' ' ∉ verb) (ha : ' ' ∉ a) (hb : ' ' ∉ b) :
    word 1 0 (verb ++ ' ' :: (a ++ ' ' :: b)) = a ∧
      word 2 0 (verb ++ ' ' :: (a ++ ' ' :: b)) = b := by
  rw [word_append_space hverb, word_append_space ha, word_of_noSpace hb, word_append_space hverb,
    word_append_space ha, word_of_noSpace hb]
  simp

theorem spawnText_eq (parent child : List Char) :
    spawnText parent child = ['s', 'p', 'a', 'w', 'n'] ++ ' ' :: (parent ++ ' ' :: child) := rfl

theorem exchangeText_eq (one other : List Char) :
    exchangeText one other =
      ['e', 'x', 'c', 'h', 'a', 'n', 'g', 'e'] ++ ' ' :: (one ++ ' ' :: other) := by
  simp [exchangeText]

theorem killText_eq (target : List Char) :
    killText target = ['k', 'i', 'l', 'l'] ++ ' ' :: target :=
  rfl

theorem findText_eq (target : List Char) :
    findText target = ['f', 'i', 'n', 'd'] ++ ' ' :: target :=
  rfl

end Words

/-- The loops that look for the name in a message find it. -/
theorem wanted_self {serviceName name : List Char} (hname : cString serviceName = name)
    (hspace : ' ' ∉ name) : Wanted serviceName name := by
  intro other hother
  rw [hname, spawnText_eq, findText_eq, killText_eq, exchangeText_eq]
  exact ⟨(word_two_names (by decide) hspace hother).1, word_one_name (by decide) hspace,
    word_one_name (by decide) hspace, (word_two_names (by decide) hother hspace).2⟩

section Copies

variable {name : List Char}

/-- A string that is written to the start of a piece is the string there. -/
theorem write_string {n : Nat} (b : Bytes n) (hnul : nul ∉ name) (hfits : name.length < n) :
    ∃ b', b.write 0 (name ++ [nul]) = some b' ∧ cString b'.cells = name ∧
      b'.cells = name ++ nul :: b.cells.drop (name.length + 1) := by
  have hle : 0 + (name ++ [nul]).length ≤ n := by
    simp only [List.length_append, List.length_singleton]
    omega
  obtain ⟨b', hwrite, hbytes⟩ := b.exists_write hle
  have hcells : b'.cells = name ++ nul :: b.cells.drop (name.length + 1) := by
    rw [hbytes]
    simp
  refine ⟨b', hwrite, ?_, hcells⟩
  rw [hcells]
  exact FlatBytes.takeWhile_append_stop hnul _

theorem scanName_eq (childName : Bytes 20) (hnul : nul ∉ name) (hfits : name.length ≤ 19) :
    scanName childName name = some name := by
  obtain ⟨b, hwrite, hstring, -⟩ := write_string childName hnul (by omega)
  rw [scanName, hwrite, Option.map_some, hstring]

/-- The 20 bytes of the `service` behind both writes. -/
theorem nameService_eq (newService : Bytes 20) (hnul : nul ∉ name) (hfits : name.length ≤ 19) :
    ∃ service, nameService newService name = some service ∧ cString service.cells = name ∧
      service.cells = name ++ nul ::
        (newService.cells.take 16 ++ List.replicate 4 nul).drop (name.length + 1) := by
  have hlength := newService.length_eq
  let cleared : Bytes 20 :=
    ⟨newService.cells.take 16 ++ List.replicate 4 nul, by simp [hlength]⟩
  have hclear : newService.write 16 (List.replicate 4 nul) = some cleared := by
    rw [Bytes.write, dif_pos (by simp)]
    simp [FlatBytes.overwrite, hlength, cleared]
  obtain ⟨service, hwrite, hstring, hcells⟩ := write_string cleared hnul (by omega)
  exact ⟨service, by rw [nameService, hclear, Option.bind_some, hwrite], hstring, hcells⟩

theorem number_eq_zero_iff {bytes : List Char} :
    bytes.foldr (fun c n => c.toNat + 256 * n) 0 = 0 ↔ ∀ c ∈ bytes, c = nul := by
  induction bytes with
  | nil => simp
  | cons c bytes ih =>
      have hc : c.toNat = 0 ↔ c = nul := by
        rw [← Char.toNat_inj]
        rfl
      simp only [List.foldr_cons, List.mem_cons, forall_eq_or_imp, ← ih, ← hc]
      omega

/-- A name of up to 16 characters leaves `have_killed` alone, a longer one sets it. -/
theorem haveKilled_eq_zero_iff (hnul : nul ∉ name) (hfits : name.length ≤ 19)
    {service : Bytes 20} (hservice : nameService newService name = some service) :
    haveKilled service = 0 ↔ name.length ≤ 16 := by
  obtain ⟨service', hservice', -, hcells⟩ := nameService_eq newService hnul hfits
  obtain rfl := Option.some.inj (hservice.symm.trans hservice')
  have htake : (newService.cells.take 16).length = 16 := by simp [newService.length_eq]
  rw [haveKilled, number_eq_zero_iff, hcells]
  constructor
  · intro hzero
    by_contra hlong
    have hin : name[16] ∈ (name ++ nul :: (newService.cells.take 16 ++
        List.replicate 4 nul).drop (name.length + 1)).drop 16 := by
      rw [List.drop_append_of_le_length (by omega)]
      apply List.mem_append_left
      rw [List.mem_drop_iff_getElem]
      exact ⟨0, by omega, rfl⟩
    exact hnul (hzero _ hin ▸ List.getElem_mem _)
  · intro hshort c hc
    obtain ⟨i, hi, rfl⟩ := List.mem_drop_iff_getElem.mp hc
    rw [List.getElem_append_right (by omega)]
    rcases Nat.eq_zero_or_pos (16 + i - name.length) with hfirst | hpos
    · simp [hfirst]
    · rw [List.getElem_cons, dif_neg (by omega), List.getElem_drop,
        List.getElem_append_right (by omega)]
      exact List.getElem_replicate _

/-- A name finds its service exactly if it has at most 15 characters: one of 16 is not
terminated in the new process, and a longer one marks the child as killed as well. -/
theorem addressable_iff (hspace : ' ' ∉ name) (hnul : nul ∉ name) (hfits : name.length ≤ 19)
    (childName newService : Bytes 20) :
    Addressable childName newService name ↔ name.length ≤ 15 := by
  have hscan := scanName_eq childName hnul hfits
  constructor
  · rintro ⟨passed, hpassed, -, -, -, -, hterminated, -⟩
    obtain rfl := Option.some.inj (hscan.symm.trans hpassed)
    by_contra hlong
    rw [ownName, List.take_append_of_le_length (by omega)] at hterminated
    exact hnul (List.mem_of_mem_take hterminated)
  · intro hshort
    obtain ⟨service, hservice, hstring, -⟩ := nameService_eq newService hnul hfits
    have hown : ownName name =
        name ++ nul :: List.replicate (15 - name.length) nul := by
      rw [ownName, List.take_append, List.take_of_length_le (by omega), List.take_replicate,
        Nat.min_eq_left (by omega), ← List.replicate_succ]
      congr 2
      omega
    have hname : cString (ownName name) = name := by
      rw [hown]
      exact FlatBytes.takeWhile_append_stop hnul _
    refine ⟨name, hscan, service, hservice, ?_, hstring, ?_, hname, wanted_self hname hspace⟩
    · exact (haveKilled_eq_zero_iff hnul hfits hservice).mpr (by omega)
    · rw [hown]
      simp

/-- Memory that nobody has cleared. -/
def noise : Bytes 20 := ⟨List.replicate 20 'z', rfl⟩

theorem addressable_iff_worker :
    Addressable noise noise ['w', 'o', 'r', 'k', 'e', 'r'] ↔ 6 ≤ 15 :=
  addressable_iff (by decide) (by decide) (by decide) noise noise

/-- The name of a service that is marked as killed from the start. -/
def seventeen : List Char := List.replicate 17 'n'

theorem not_addressable_seventeen :
    ¬ Addressable noise noise seventeen ∧
      (nameService noise seventeen).map haveKilled = some 110 := by
  constructor
  · rintro ⟨passed, hpassed, -, -, -, -, hterminated, -⟩
    obtain rfl : seventeen = passed :=
      Option.some.inj ((scanName_eq noise (by decide) (by decide)).symm.trans hpassed)
    exact absurd hterminated (by decide)
  · decide

end Copies

end Services

end SystemsProgramming
