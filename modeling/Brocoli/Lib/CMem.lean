/-
Char arrays as C sees them.

An array is the list of its bytes and never changes its length: a store puts
bytes at an offset and leaves the rest as it was, and what would fall past the
end of the array is not part of it.  A C string is what is read from an offset up
to the first NUL.

Two situations come up again and again.  A buffer that has just been zeroed reads
back exactly what is stored at its front, NUL or not, as long as something of the
zeros is left.  A buffer that is reused does not, unless the reader writes the NUL
itself; what it then reads is the new bytes followed by the tail of the old ones.
-/
import Mathlib.Data.List.Basic
import Mathlib.Data.List.Infix
import Mathlib.Data.List.TakeWhile
import Mathlib.Tactic.Common

namespace CMem

abbrev Byte := UInt8

/-- A C string: the bytes before its NUL. -/
abbrev Str := List Byte

/-- The bytes of a string literal. -/
def lit (s : String) : Str := s.toList.map fun c => UInt8.ofNat c.toNat

/-- The C string at the front of a memory area. -/
def cstr (mem : List Byte) : Str := mem.takeWhile (· ≠ 0)

/-- Storing `bs` at `off`; the area keeps its size. -/
def store (mem : List Byte) (off : Nat) (bs : List Byte) : List Byte :=
  mem.take off ++ bs.take (mem.length - off) ++ mem.drop (off + bs.length)

/-- A zeroed array. -/
def zeros (n : Nat) : List Byte := List.replicate n 0

/-! ### Reading strings -/

@[simp] theorem cstr_nil : cstr [] = [] := rfl

theorem cstr_cons_of_ne {b : Byte} (hb : b ≠ 0) (m : List Byte) :
    cstr (b :: m) = b :: cstr m := by
  simp [cstr, hb]

@[simp] theorem cstr_zero_cons (m : List Byte) : cstr (0 :: m) = [] := by
  simp [cstr]

/-- A string holds no NUL. -/
theorem zero_notMem_cstr (m : List Byte) : (0 : Byte) ∉ cstr m := by
  intro h
  have := List.mem_takeWhile_imp h
  simp at this

theorem cstr_append_of_notMem {s : List Byte} (hs : (0 : Byte) ∉ s) (t : List Byte) :
    cstr (s ++ t) = s ++ cstr t := by
  induction s with
  | nil => rfl
  | cons b rest ih =>
      have hb : b ≠ 0 := fun h => hs (by simp [h])
      rw [List.cons_append, cstr_cons_of_ne hb, ih fun h => hs (by simp [h]), List.cons_append]

theorem cstr_of_notMem {s : List Byte} (hs : (0 : Byte) ∉ s) : cstr s = s := by
  simpa using cstr_append_of_notMem hs []

theorem cstr_append_of_mem {s : List Byte} (hs : (0 : Byte) ∈ s) (t : List Byte) :
    cstr (s ++ t) = cstr s := by
  induction s with
  | nil => simp at hs
  | cons b rest ih =>
      by_cases hb : b = 0
      · subst hb
        simp
      · have hrest : (0 : Byte) ∈ rest := by
          rcases List.mem_cons.mp hs with h | h
          · exact absurd h.symm hb
          · exact h
        rw [List.cons_append, cstr_cons_of_ne hb, cstr_cons_of_ne hb, ih hrest]

/-- A string ends at the first NUL at the latest. -/
theorem length_cstr_append_zero_le (s t : List Byte) : (cstr (s ++ 0 :: t)).length ≤ s.length := by
  by_cases h : (0 : Byte) ∈ s
  · rw [cstr_append_of_mem h]
    exact (List.takeWhile_prefix _).length_le
  · rw [cstr_append_of_notMem h, cstr_zero_cons, List.append_nil]

/-- A terminated string is read back whole, whatever follows its NUL. -/
theorem cstr_terminated {s : List Byte} (hs : (0 : Byte) ∉ s) (t : List Byte) :
    cstr (s ++ 0 :: t) = s := by
  rw [cstr_append_of_notMem hs, cstr_zero_cons, List.append_nil]

@[simp] theorem cstr_cstr (m : List Byte) : cstr (cstr m) = cstr m :=
  cstr_of_notMem (zero_notMem_cstr m)

theorem cstr_prefix_mem (m : List Byte) : cstr m <+: m := List.takeWhile_prefix _

theorem length_cstr_le (m : List Byte) : (cstr m).length ≤ m.length :=
  (cstr_prefix_mem m).length_le

@[simp] theorem cstr_zeros (n : Nat) : cstr (zeros n) = [] := by
  cases n with
  | zero => rfl
  | succ n => simp [zeros, List.replicate_succ]

@[simp] theorem length_zeros (n : Nat) : (zeros n).length = n := List.length_replicate

theorem drop_zeros (n k : Nat) : (zeros n).drop k = zeros (n - k) := List.drop_replicate

/-! ### Storing -/

@[simp] theorem length_store (mem : List Byte) (off : Nat) (bs : List Byte) :
    (store mem off bs).length = mem.length := by
  simp only [store, List.length_append, List.length_take, List.length_drop]
  omega

theorem store_zero (mem bs : List Byte) :
    store mem 0 bs = bs.take mem.length ++ mem.drop bs.length := by
  simp [store]

/-- Storing what fits at the front leaves the tail of the array. -/
theorem store_front {mem bs : List Byte} (h : bs.length ≤ mem.length) :
    store mem 0 bs = bs ++ mem.drop bs.length := by
  rw [store_zero, List.take_of_length_le h]

/-- A store that fits: the array splits around what was written. -/
theorem store_fits {mem bs : List Byte} {off : Nat} (h : off + bs.length ≤ mem.length) :
    store mem off bs = mem.take off ++ (bs ++ mem.drop (off + bs.length)) := by
  rw [store, List.take_of_length_le (by omega : bs.length ≤ mem.length - off), List.append_assoc]

/-- A zeroed array reads back the string that is stored at its front. -/
theorem cstr_store_zeros {n : Nat} {bs : List Byte} (h : bs.length < n) :
    cstr (store (zeros n) 0 bs) = cstr bs := by
  rw [store_front (by simpa using Nat.le_of_lt h), drop_zeros]
  by_cases h0 : (0 : Byte) ∈ bs
  · rw [cstr_append_of_mem h0]
  · rw [cstr_append_of_notMem h0, cstr_zeros, List.append_nil, cstr_of_notMem h0]

/-- Writing a NUL right behind what was stored at the front. -/
theorem store_set_end {mem bs : List Byte} (h : bs.length < mem.length) :
    (store mem 0 bs).set bs.length 0 = bs ++ 0 :: mem.drop (bs.length + 1) := by
  rw [store_front (Nat.le_of_lt h), List.set_append_right _ _ (Nat.le_refl _), Nat.sub_self,
    List.drop_eq_getElem_cons h, List.set_cons_zero]

/-- A reused array reads back the string stored at its front once the NUL is
written behind it. -/
theorem cstr_store_set {mem bs : List Byte} (h : bs.length < mem.length) :
    cstr ((store mem 0 bs).set bs.length 0) = cstr bs := by
  rw [store_set_end h]
  by_cases h0 : (0 : Byte) ∈ bs
  · rw [cstr_append_of_mem h0]
  · rw [cstr_terminated h0, cstr_of_notMem h0]

/-- A reused array without that NUL: the new bytes run on into the old tail. -/
theorem cstr_store_stale {mem bs : List Byte} (h : bs.length ≤ mem.length)
    (h0 : (0 : Byte) ∉ bs) :
    cstr (store mem 0 bs) = bs ++ cstr (mem.drop bs.length) := by
  rw [store_front h, cstr_append_of_notMem h0]

/-- Reading behind a store does not see it. -/
theorem drop_store {mem bs : List Byte} {off k : Nat} (hk : off + bs.length ≤ k)
    (hfits : off + bs.length ≤ mem.length) :
    (store mem off bs).drop k = mem.drop k := by
  rw [store_fits hfits, List.drop_append, List.drop_append]
  simp only [List.length_take, List.drop_drop]
  rw [List.drop_eq_nil_of_le (by simp; omega), List.drop_eq_nil_of_le (by omega),
    List.nil_append, List.nil_append]
  congr 1
  omega

/-- A string stored with its NUL is read back from where it was stored. -/
theorem cstr_drop_store {mem s : List Byte} {off : Nat} (hs : (0 : Byte) ∉ s)
    (hfits : off + s.length + 1 ≤ mem.length) :
    cstr ((store mem off (s ++ [0])).drop off) = s := by
  rw [store_fits (by simp; omega), List.drop_append_of_le_length (by simp; omega),
    List.drop_take, Nat.sub_self, List.take_zero, List.nil_append, List.append_assoc]
  exact cstr_terminated hs _

theorem cstr_store_terminated {mem s : List Byte} (hs : (0 : Byte) ∉ s)
    (h : s.length < mem.length) : cstr (store mem 0 (s ++ [0])) = s := by
  have hfits : 0 + s.length + 1 ≤ mem.length := by omega
  simpa using cstr_drop_store hs hfits

/-- What was stored is what is read at its place. -/
theorem window_store_self {mem bs : List Byte} {off : Nat} (h : off + bs.length ≤ mem.length) :
    ((store mem off bs).drop off).take bs.length = bs := by
  rw [store_fits h, List.drop_append_of_le_length (by simp; omega), List.drop_take, Nat.sub_self,
    List.take_zero, List.nil_append, List.take_left]

/-- A window in front of a store does not see it. -/
theorem window_store_before {mem : List Byte} {off k n : Nat} (hoff : off ≤ mem.length)
    (h : k + n ≤ off) (bs : List Byte) :
    ((store mem off bs).drop k).take n = (mem.drop k).take n := by
  have hlen : (mem.take off).length = off := by
    rw [List.length_take]
    omega
  rw [store, List.append_assoc, List.drop_append_of_le_length (by omega),
    List.take_append_of_le_length (by rw [List.length_drop]; omega), List.drop_take,
    List.take_take, Nat.min_eq_left (by omega)]

/-- Nor does a window behind it. -/
theorem window_store_other {mem bs : List Byte} {off k n : Nat}
    (hfits : off + bs.length ≤ mem.length) (h : k + n ≤ off ∨ off + bs.length ≤ k) :
    ((store mem off bs).drop k).take n = (mem.drop k).take n := by
  rcases h with hbefore | hbehind
  · exact window_store_before (by omega) hbefore bs
  · rw [drop_store hbehind hfits]

/-! ### Searching -/

/-- `strchr`: where the first `c` of a string is. -/
def strchr (s : Str) (c : Byte) : Option Nat := s.idxOf? c

/-- `strrchr`: where the last one is. -/
def strrchr (s : Str) (c : Byte) : Option Nat :=
  (s.reverse.idxOf? c).map fun i => s.length - 1 - i

theorem strchr_of_notMem {s : Str} {c : Byte} (h : c ∉ s) : strchr s c = none :=
  List.idxOf?_eq_none_iff.mpr h

theorem strrchr_of_notMem {s : Str} {c : Byte} (h : c ∉ s) : strrchr s c = none := by
  rw [strrchr, List.idxOf?_eq_none_iff.mpr (by simpa using h), Option.map_none]

theorem strchr_append {a : Str} {c : Byte} (h : c ∉ a) (b : Str) :
    strchr (a ++ c :: b) c = some a.length := by
  induction a with
  | nil => simp [strchr, List.idxOf?_cons]
  | cons x a ih =>
      have hx : x ≠ c := fun heq => h (by simp [heq])
      have hrest : c ∉ a := fun hmem => h (by simp [hmem])
      have := ih hrest
      rw [strchr] at this
      simp [strchr, List.idxOf?_cons, hx, this]

theorem exists_first {s : Str} {c : Byte} (h : c ∈ s) : ∃ a b, s = a ++ c :: b ∧ c ∉ a :=
  List.eq_append_cons_of_mem h

theorem exists_last {s : Str} {c : Byte} (h : c ∈ s) : ∃ a b, s = a ++ c :: b ∧ c ∉ b := by
  obtain ⟨b, a, hs, hb⟩ := exists_first (List.mem_reverse.mpr h)
  refine ⟨a.reverse, b.reverse, ?_, by simpa using hb⟩
  rw [← List.reverse_reverse s, hs]
  simp

theorem strrchr_append (a : Str) {c : Byte} {b : Str} (h : c ∉ b) :
    strrchr (a ++ c :: b) c = some a.length := by
  have hrev : (a ++ c :: b).reverse = b.reverse ++ c :: a.reverse := by simp
  have hfirst := strchr_append (a := b.reverse) (c := c) (by simpa using h) a.reverse
  rw [strchr] at hfirst
  rw [strrchr, hrev, hfirst]
  simp

/-! ### Char arrays that are reused

A `char buf[n]` a loop receives into again and again.
-/

/-- A char array of `n` bytes. -/
structure Buf (n : Nat) where
  mem : List Byte
  size : mem.length = n
deriving DecidableEq

namespace Buf

variable {n : Nat}

/-- `char buf[n] = {0,}` -/
def zero (n : Nat) : Buf n := ⟨zeros n, length_zeros n⟩

/-- What a receive of `bs` leaves in the array. -/
def recv (b : Buf n) (bs : List Byte) : Buf n := ⟨store b.mem 0 bs, by rw [length_store, b.size]⟩

/-- What `sprintf` of `bs` with its NUL at an offset leaves in the array. -/
def put (b : Buf n) (off : Nat) (bs : List Byte) : Buf n :=
  ⟨store b.mem off bs, by rw [length_store, b.size]⟩

@[simp] theorem put_mem (b : Buf n) (off : Nat) (bs : List Byte) :
    (b.put off bs).mem = store b.mem off bs := rfl

/-- `buf[i] = 0` -/
def nulAt (b : Buf n) (i : Nat) : Buf n := ⟨b.mem.set i 0, by rw [List.length_set, b.size]⟩

/-- The array read as a C string. -/
def str (b : Buf n) : Str := cstr b.mem

theorem str_recv_zero {bs : List Byte} (h : bs.length < n) : ((zero n).recv bs).str = cstr bs :=
  cstr_store_zeros h

/-- A receive of more than the array holds. -/
theorem recv_mem_long (b : Buf n) {bs : List Byte} (h : n ≤ bs.length) :
    (b.recv bs).mem = bs.take n := by
  show store b.mem 0 bs = _
  rw [store_zero, b.size, List.drop_eq_nil_of_le (by rw [b.size]; exact h), List.append_nil]

/-- What is read from a fresh array is the front of what was received. -/
theorem str_recv_front (bs : List Byte) : ((zero n).recv bs).str <+: bs := by
  by_cases h : bs.length < n
  · rw [str_recv_zero h]
    exact cstr_prefix_mem bs
  · rw [str, recv_mem_long _ (Nat.not_lt.mp h)]
    exact (cstr_prefix_mem _).trans (List.take_prefix n bs)

/-- The first byte that is received is the first that is read, unless it is a NUL. -/
theorem headD_str_recv (b : Buf (n + 1)) {bs : List Byte} (h : bs ≠ []) :
    (b.recv bs).str.headD 0 = bs.headD 0 := by
  cases bs with
  | nil => exact absurd rfl h
  | cons c bs =>
      have hmem : (b.recv (c :: bs)).mem = c :: (bs.take n ++ b.mem.drop (bs.length + 1)) := by
        show store b.mem 0 (c :: bs) = _
        rw [store_zero, b.size, List.take_succ_cons, List.length_cons, List.cons_append]
      rw [str, hmem]
      by_cases hc : c = 0
      · rw [hc, cstr_zero_cons]
        rfl
      · rw [cstr_cons_of_ne hc]
        rfl

theorem str_recv_nulAt (b : Buf n) {bs : List Byte} (h : bs.length < n) :
    ((b.recv bs).nulAt bs.length).str = cstr bs :=
  cstr_store_set (by rw [b.size]; exact h)

theorem str_recv_stale (b : Buf n) {bs : List Byte} (h : bs.length ≤ n) (h0 : (0 : Byte) ∉ bs) :
    (b.recv bs).str = bs ++ cstr (b.mem.drop bs.length) :=
  cstr_store_stale (by rw [b.size]; exact h) h0

end Buf

end CMem
