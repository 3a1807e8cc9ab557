import SoKernel.Image.ModuleLoader

/-!
# The start of the kernel

Embedding of `initializeKernelBinary` of `kernel.c`. The boot loader puts the packed image where
`kernel.ld` starts the kernel, so that the modules stand in the region that the kernel uses as its
`.bss`, and have to be copied away before this region is cleared.
-/

namespace SoKernel.Image

section Model

/-- The address in `kernel.ld` at which the kernel starts. -/
def kernelAddress : ℕ := 0x100000

def sampleCodeModuleAddress : ℕ := 0x400000

def sampleDataModuleAddress : ℕ := 0x500000

def pageSize : ℕ := 0x1000

/-- The symbols of `kernel.ld`, in the order of the file. -/
structure Linked where
  endOfKernelBinary : ℕ
  bss : ℕ
  endOfKernel : ℕ
  binary_le : endOfKernelBinary ≤ bss
  bss_le : bss ≤ endOfKernel

def clearBSS (bssAddress bssSize : ℕ) (m : ByteMemory) : ByteMemory := memset m bssAddress 0 bssSize

def getStackBase (k : Linked) : ℕ := k.endOfKernel + pageSize * 8 - 8

/-- `initializeKernelBinary`, and the stack pointer that it returns to the entry point. -/
def initializeKernelBinary (k : Linked) (c : Console) (m : ByteMemory) :
    Option (ByteMemory × ℕ) :=
  (loadModules c k.endOfKernelBinary [sampleCodeModuleAddress, sampleDataModuleAddress] m).map
    fun m => (clearBSS k.bss (k.endOfKernel - k.bss) m, getStackBase k)

end Model

section Boot

variable {k : Linked} {c : Console} {kernel : List UInt8} {modules : List (List UInt8)}
  {m : ByteMemory}

/-- The variables of the console are in the kernel, with the cursor at the start of the text page,
as `naiveConsole.c` initialises it. -/
structure ConsoleLinked (k : Linked) (c : Console) (kernel : List UInt8) : Prop where
  below : c.Below k.endOfKernelBinary
  within : kernelAddress ≤ c.currentVideo
  cursor : (kernel.drop (c.currentVideo - kernelAddress)).take 8 = LittleEndian.bytes 8 video

/-- The image, the `.bss` and the first module stay off the places of the modules behind them. -/
structure Fits (k : Linked) (kernel : List UInt8) (modules : List (List UInt8)) : Prop where
  binary : k.endOfKernelBinary = kernelAddress + kernel.length
  targets : modules.length ≤ 2
  image : k.endOfKernelBinary + (payload modules).length ≤ sampleCodeModuleAddress
  bss : k.endOfKernel ≤ sampleCodeModuleAddress
  code : ∀ code data, modules = [code, data] →
    sampleCodeModuleAddress + code.length ≤ sampleDataModuleAddress

theorem Fits.sizes (h : Fits k kernel modules) :
    ∀ contents ∈ modules, contents.length < 2 ^ 32 := by
  intro contents hc
  have hentry : (entry contents).length ≤ (entries modules).length := by
    obtain ⟨before, after, rfl⟩ := List.append_of_mem hc
    simp [entries]
    omega
  have himage := h.image
  simp only [length_payload, length_entry, sampleCodeModuleAddress] at himage hentry
  omega

theorem Fits.clear (h : Fits k kernel modules) :
    Clear (k.endOfKernelBinary + 4) [sampleCodeModuleAddress, sampleDataModuleAddress] modules := by
  have himage := h.image
  have hcode := h.code
  have htwo := h.targets
  rw [length_payload] at himage
  cases modules with
  | nil => trivial
  | cons code modules =>
      simp only [entries_cons, List.length_append, length_entry, sampleCodeModuleAddress]
        at himage
      cases modules with
      | nil =>
          refine ⟨Or.inr ?_, Or.inr ?_, by simp, trivial⟩ <;>
            simp only [sampleCodeModuleAddress, entries_nil, List.length_nil] <;> omega
      | cons data modules =>
          obtain rfl : modules = [] := List.length_eq_zero_iff.mp (by simpa using htwo)
          have hfits := hcode code data rfl
          simp only [entries_cons, List.length_append, length_entry, entries_nil,
            List.length_nil] at himage
          refine ⟨Or.inr ?_, Or.inr ?_, ?_, Or.inr ?_, Or.inr ?_, by simp, trivial⟩
          · simp only [sampleCodeModuleAddress]
            omega
          · simp only [sampleCodeModuleAddress, entries_cons, List.length_append, length_entry,
              entries_nil, List.length_nil]
            omega
          · intro p hp
            obtain rfl : p = (sampleDataModuleAddress, data) := by simpa using hp
            exact Or.inl hfits
          · simp only [sampleDataModuleAddress]
            omega
          · simp only [sampleDataModuleAddress, entries_nil, List.length_nil]
            omega

theorem target_le {p : ℕ × List UInt8}
    (h : p ∈ [sampleCodeModuleAddress, sampleDataModuleAddress].zip modules) :
    sampleCodeModuleAddress ≤ p.1 := by
  have hmem := (List.of_mem_zip h).1
  simp only [List.mem_cons, List.not_mem_nil, or_false] at hmem
  obtain heq | heq := hmem
  · exact heq.ge
  · rw [heq]
    decide

theorem outside_of_lt {a : ℕ} (h : a < sampleCodeModuleAddress) :
    Outside [sampleCodeModuleAddress, sampleDataModuleAddress] modules a := fun _ hp =>
  Or.inl (lt_of_lt_of_le h (target_le hp))

/-- In a loaded kernel the cursor stands at the start of the text page. -/
theorem ConsoleLinked.stands (h : ConsoleLinked k c kernel)
    (hbinary : k.endOfKernelBinary = kernelAddress + kernel.length)
    (hkernel : m.Holds kernelAddress kernel) : c.Stands 0 m := by
  have hend := h.below.currentVideo
  have hwithin := h.within
  have hplace : kernelAddress + (c.currentVideo - kernelAddress) = c.currentVideo := by omega
  have htake : (kernel.take (c.currentVideo - kernelAddress)).length =
      c.currentVideo - kernelAddress := by
    rw [List.length_take]
    omega
  rw [← List.take_append_drop (c.currentVideo - kernelAddress) kernel] at hkernel
  have hdrop := (ByteMemory.holds_append.mp hkernel).2
  rw [htake, hplace, ← List.take_append_drop 8 (kernel.drop _), h.cursor] at hdrop
  exact (ByteMemory.holds_append.mp hdrop).1

/-- After the start every module stands whole at its address and the `.bss` is zero, although the
modules came in it. Apart from what the console writes, the kernel is as it was loaded and nothing
else has changed. -/
theorem initializeKernelBinary_loads (hfits : Fits k kernel modules)
    (hconsole : ConsoleLinked k c kernel) {canCreate : Bool} {image : List UInt8}
    (hpacked : packerMain canCreate ((kernel :: modules).map some) = (0, some image))
    (hloaded : m.Holds kernelAddress image) :
    ∃ m', initializeKernelBinary k c m = some (m', k.endOfKernel + 0x7ff8) ∧
      (∀ p ∈ [sampleCodeModuleAddress, sampleDataModuleAddress].zip modules, m'.Holds p.1 p.2) ∧
      (∀ a, k.bss ≤ a → a < k.endOfKernel → m' a = 0) ∧
      (∀ i (hi : i < kernel.length), ¬c.Touches (kernelAddress + i) →
        m' (kernelAddress + i) = kernel.get ⟨i, hi⟩) ∧
      ∀ a, (a < k.bss ∨ k.endOfKernel ≤ a) →
        Outside [sampleCodeModuleAddress, sampleDataModuleAddress] modules a → ¬c.Touches a →
        m' a = m a := by
  obtain ⟨contents, hfiles, himage⟩ := packerMain_eq_zero hpacked
  obtain rfl := List.map_injective_iff.mpr (Option.some_injective _) hfiles
  rw [Option.some.inj himage, buildImage_eq] at hloaded
  obtain ⟨hkernel, hpayload⟩ := ByteMemory.holds_append.mp hloaded
  rw [← hfits.binary] at hpayload
  have hend : k.endOfKernel ≤ sampleCodeModuleAddress := hfits.bss
  have hbinary := hfits.binary
  have horder := k.binary_le
  have hbss := k.bss_le
  have himage := hfits.image
  have htargets : ∀ target ∈ [sampleCodeModuleAddress, sampleDataModuleAddress],
      c.Below target ∧ target < 2 ^ 64 := by
    intro target htarget
    simp only [List.mem_cons, List.not_mem_nil, or_false] at htarget
    simp only [sampleCodeModuleAddress] at hend
    obtain rfl | rfl := htarget
    · exact ⟨hconsole.below.mono (by simp only [sampleCodeModuleAddress]; omega), by decide⟩
    · exact ⟨hconsole.below.mono (by simp only [sampleDataModuleAddress]; omega), by decide⟩
  have hroom : 2 * (modules.length * moduleRows) ≤ pageLength := by
    have htwo := hfits.targets
    simp only [moduleRows, width, pageLength]
    omega
  obtain ⟨m₁, hload, hplaces, hsame⟩ := loadModules_payload
    (hconsole.stands hfits.binary hkernel) hroom hconsole.below htargets
    (by simp only [sampleCodeModuleAddress] at himage; omega) hfits.clear hpayload
    (lt_of_le_of_lt hfits.targets (by decide)) hfits.sizes
  have hcleared : memset m₁ k.bss 0 (k.endOfKernel - k.bss) =
      m₁.store k.bss (List.replicate (k.endOfKernel - k.bss) 0) := memset_eq _ _ _ _
  have hwithin := m₁.store_within k.bss (List.replicate (k.endOfKernel - k.bss) 0)
  rw [List.length_replicate, ← hcleared] at hwithin
  refine ⟨_, by rw [initializeKernelBinary, hload]; rfl, ?_, ?_, ?_, ?_⟩
  · -- The modules go behind the kernel, so that clearing does not reach them.
    intro p hp
    refine hwithin.holds (Or.inr ?_) (hplaces p hp)
    have hplace : sampleCodeModuleAddress ≤ p.1 := target_le hp
    omega
  · intro a hle hlt
    obtain ⟨i, rfl⟩ := Nat.exists_eq_add_of_le hle
    have hi : i < (List.replicate (k.endOfKernel - k.bss) (0 : UInt8)).length := by
      rw [List.length_replicate]
      omega
    show memset m₁ k.bss 0 (k.endOfKernel - k.bss) (k.bss + i) = 0
    rw [hcleared, ByteMemory.store_at _ _ hi]
    simp
  · intro i hi hfree
    rw [ByteMemory.holds_iff] at hkernel
    show memset m₁ k.bss 0 (k.endOfKernel - k.bss) (kernelAddress + i) = _
    rw [hwithin.apply (Or.inl (by omega)), hsame _ (outside_of_lt (by omega)) hfree, hkernel i hi]
  · intro a hout houtside hfree
    rw [← hsame a houtside hfree]
    exact hwithin.apply (by omega)

/-- A kernel that is its `.data`: the cursor and the buffer of the console. -/
def consoleKernel : List UInt8 :=
  LittleEndian.bytes 8 video ++ '0'.toUInt8 :: List.replicate 63 0

/-- A kernel with the console, and two modules. -/
theorem initializeKernelBinary_loads_two :
    ∃ m', initializeKernelBinary ⟨0x100048, 0x101000, 0x102000, by decide, by decide⟩
        ⟨0x100000, 0x100008, by decide, by decide, by decide⟩
        (ByteMemory.store (fun _ => 7) kernelAddress (buildImage [consoleKernel, [4, 5], [6]])) =
          some (m', 0x102000 + 0x7ff8) ∧
      m'.Holds sampleCodeModuleAddress [4, 5] ∧ m'.Holds sampleDataModuleAddress [6] ∧
      m' 0x101000 = 0 := by
  have hfits : Fits ⟨0x100048, 0x101000, 0x102000, by decide, by decide⟩ consoleKernel
      [[4, 5], [6]] :=
    { binary := by decide
      targets := le_rfl
      image := by decide
      bss := by decide
      code := fun code data h => by
        obtain rfl : [4, 5] = code := (List.cons.inj h).1
        decide }
  have hconsole : ConsoleLinked ⟨0x100048, 0x101000, 0x102000, by decide, by decide⟩
      ⟨0x100000, 0x100008, by decide, by decide, by decide⟩ consoleKernel :=
    { below := ⟨by decide, by decide⟩
      within := le_rfl
      cursor := by decide }
  obtain ⟨m', hrun, hplaces, hzero, -⟩ := initializeKernelBinary_loads hfits hconsole
    (packerMain_readable [consoleKernel, [4, 5], [6]]) (ByteMemory.holds_store (fun _ => 7) _ _)
  exact ⟨m', hrun, hplaces (_, [4, 5]) (by decide), hplaces (_, [6]) (by decide),
    hzero _ (by decide) (by decide)⟩

end Boot

end SoKernel.Image
