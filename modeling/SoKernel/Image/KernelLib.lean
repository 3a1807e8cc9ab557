import SoKernel.Lib.ByteMemory

/-!
# `memset` and `memcpy`

The two functions of the kernel's `lib.c` that write to memory. `memcpy` copies words when both
addresses and the length are multiples of four, and bytes otherwise. The two loops leave the same
memory, also where the regions overlap. No region wraps around the end of the address space.
-/

namespace SoKernel.Image

open Function (update)

section Model

/-- `*(uint32_t *) address`. -/
def loadWord (m : ByteMemory) (address : ℕ) : ℕ := LittleEndian.value (m.fetch address 4)

/-- `*(uint32_t *) address = value`. -/
def storeWord (m : ByteMemory) (address value : ℕ) : ByteMemory :=
  m.store address (LittleEndian.bytes 4 value)

/-- The loop of `memset` with `length` turns ahead, from the last byte down. -/
def fillLoop (m : ByteMemory) (dst : ℕ) (chr : UInt8) : ℕ → ByteMemory
  | 0 => m
  | length + 1 => fillLoop (update m (dst + length) chr) dst chr length

def memset (m : ByteMemory) (destination : ℕ) (c : Int32) (length : ℕ) : ByteMemory :=
  fillLoop m destination (UInt8.ofNat c.toUInt32.toNat) length

/-- The first `i` turns of the loop over words. -/
def wordLoop (m : ByteMemory) (d s : ℕ) : ℕ → ByteMemory
  | 0 => m
  | i + 1 => storeWord (wordLoop m d s i) (d + 4 * i) (loadWord (wordLoop m d s i) (s + 4 * i))

/-- The first `i` turns of the loop over bytes. -/
def byteLoop (m : ByteMemory) (d s : ℕ) : ℕ → ByteMemory
  | 0 => m
  | i + 1 => update (byteLoop m d s i) (d + i) (byteLoop m d s i (s + i))

def memcpy (m : ByteMemory) (destination source length : ℕ) : ByteMemory :=
  if destination % 4 = 0 ∧ source % 4 = 0 ∧ length % 4 = 0 then
    wordLoop m destination source (length / 4)
  else
    byteLoop m destination source length

end Model

section Words

theorem storeWord_loadWord (m m' : ByteMemory) (a b : ℕ) :
    storeWord m a (loadWord m' b) = m.store a (m'.fetch b 4) := by
  have hbytes := LittleEndian.bytes_value (m'.fetch b 4)
  rw [ByteMemory.length_fetch] at hbytes
  rw [storeWord, loadWord, hbytes]

/-- A word in memory is read back. -/
theorem loadWord_of_holds {m : ByteMemory} {a value : ℕ}
    (h : m.Holds a (LittleEndian.bytes 4 value)) : loadWord m a = value % 2 ^ 32 := by
  have hfetch : m.fetch a 4 = LittleEndian.bytes 4 value := by simpa [ByteMemory.Holds] using h
  rw [loadWord, hfetch, LittleEndian.value_bytes]
  rfl

end Words

section Loops

variable {m : ByteMemory} {d s n : ℕ}

theorem fillLoop_eq (m : ByteMemory) (dst : ℕ) (chr : UInt8) (length : ℕ) :
    fillLoop m dst chr length = m.store dst (List.replicate length chr) := by
  induction length generalizing m with
  | zero => simp [fillLoop]
  | succ length ih =>
      rw [fillLoop, ih, ByteMemory.update_eq_store]
      funext x
      obtain hlt | hge := lt_or_ge x dst
      · rw [ByteMemory.store_of_lt hlt, ByteMemory.store_of_lt (by omega),
          ByteMemory.store_of_lt hlt]
      · obtain ⟨i, rfl⟩ := Nat.exists_eq_add_of_le hge
        obtain hi | rfl | hi := lt_trichotomy i length
        · rw [ByteMemory.store_at _ _ (by simpa using hi),
            ByteMemory.store_at _ _ (by simp; omega)]
          simp
        · rw [ByteMemory.store_of_le (by simp), ByteMemory.store_at _ _ (by simp)]
          simp [ByteMemory.store_singleton]
        · rw [ByteMemory.store_of_le (by simp; omega), ByteMemory.store_of_le (by simp; omega),
            ByteMemory.store_of_le (by simp; omega)]

theorem memset_eq (m : ByteMemory) (destination : ℕ) (c : Int32) (length : ℕ) :
    memset m destination c length =
      m.store destination (List.replicate length (UInt8.ofNat c.toUInt32.toNat)) :=
  fillLoop_eq m destination _ length

theorem byteLoop_eq (m : ByteMemory) (d s n : ℕ) : byteLoop m d s n = m.copyEach d s n := by
  induction n with
  | zero => rfl
  | succ n ih => rw [byteLoop, ByteMemory.copyEach, ih]

theorem wordLoop_eq (m : ByteMemory) (d s n : ℕ) : wordLoop m d s n = m.copyUnits 4 d s n := by
  induction n with
  | zero => rfl
  | succ n ih => rw [wordLoop, ByteMemory.copyUnits, storeWord_loadWord, ih]

theorem memcpy_eq_copied (m : ByteMemory) (d s n : ℕ) :
    memcpy m d s n = m.store d (m.copied d s n) := by
  rw [← ByteMemory.copyEach_eq]
  by_cases haligned : d % 4 = 0 ∧ s % 4 = 0 ∧ n % 4 = 0
  · have hwhole : 4 * (n / 4) = n := by omega
    rw [memcpy, if_pos haligned, wordLoop_eq, ByteMemory.copyUnits_eq (by omega), hwhole]
  · rw [memcpy, if_neg haligned, byteLoop_eq]

/-- A copy to a region that does not start inside of the source. -/
theorem memcpy_eq_store (h : d ≤ s ∨ s + n ≤ d) : memcpy m d s n = m.store d (m.fetch s n) := by
  rw [memcpy_eq_copied, ByteMemory.copied_eq_fetch h]

/-- Whatever the addresses and the length are, `memcpy` leaves what its loop over bytes leaves: the
source as it was, or, if the destination starts inside of it, the bytes between the two starts
again and again. Nothing else is written. -/
theorem memcpy_spec (m : ByteMemory) (destination source length : ℕ) :
    memcpy m destination source length = byteLoop m destination source length ∧
      (∀ i < length, memcpy m destination source length (destination + i) =
        m (source + i % (destination - source))) ∧
      ByteMemory.Within destination length m (memcpy m destination source length) := by
  refine ⟨?_, fun i hi => ?_, ?_⟩
  · rw [memcpy_eq_copied, byteLoop_eq, ByteMemory.copyEach_eq]
  · rw [memcpy_eq_copied, ByteMemory.store_copied m destination source hi]
  · have hwithin := m.store_within destination (m.copied destination source length)
    rw [ByteMemory.length_copied] at hwithin
    rwa [memcpy_eq_copied]

end Loops

end SoKernel.Image
