import SoKernel.Image.ModulePacker
import SoKernel.Image.NaiveConsole

/-!
# The modules are copied to their places

Embedding of `moduleLoader.c`. The loader goes through what the packer wrote behind the kernel, while
its own copies may run over it: a module gets to its place if no copy before has run over it, and
stays there if no copy after runs over it. What the loader prints must stay off the modules as well.
-/

namespace SoKernel.Image

section Model

/-- `readUint32`: the word, and the address behind it. -/
def readUint32 (m : ByteMemory) (address : ℕ) : ℕ × ℕ := (loadWord m address, address + 4)

/-- What `loadModule` says before it copies. -/
def announce (c : Console) (module target size : ℕ) (m : ByteMemory) : ByteMemory :=
  ncPrint c (literal " bytes)") <| ncPrintDec c size <| ncPrint c (literal " (") <|
    ncPrintHex c target <| ncPrint c (literal " to 0x") <| ncPrintHex c module <|
    ncPrint c (literal "  Will copy module at 0x") m

/-- `loadModule`, and the address of the next module. -/
def loadModule (c : Console) (module target : ℕ) (m : ByteMemory) : Option (ByteMemory × ℕ) :=
  let (moduleSize, module) := readUint32 m module
  let m := announce c module target moduleSize m
  let m := memcpy m target module moduleSize
  (ncNewline c (ncPrint c (literal " [Done]") m)).map fun m => (m, module + moduleSize)

/-- The loop of `loadModules` with a number of turns ahead. Without a target the loop reads behind
the end of the array. -/
def loadLoop (c : Console) : ℕ → ℕ → List ℕ → ByteMemory → Option ByteMemory
  | 0, _, _, m => some m
  | _ + 1, _, [], _ => none
  | n + 1, module, target :: targets, m =>
      (loadModule c module target m).bind fun (m, module) => loadLoop c n module targets m

def loadModules (c : Console) (payloadStart : ℕ) (targetModuleAddress : List ℕ) (m : ByteMemory) :
    Option ByteMemory :=
  let (moduleCount, currentModule) := readUint32 m payloadStart
  loadLoop c moduleCount currentModule targetModuleAddress m

end Model

section Line

variable {c : Console} {m : ByteMemory} {n a module target size : ℕ}

/-- The variables of the console end below an address. -/
structure Console.Below (c : Console) (a : ℕ) : Prop where
  currentVideo : c.currentVideo + 8 ≤ a
  buffer : c.buffer + bufferLength ≤ a

theorem Console.Below.mono {b : ℕ} (h : c.Below a) (hab : a ≤ b) : c.Below b :=
  ⟨h.currentVideo.trans hab, h.buffer.trans hab⟩

theorem Console.Below.spares (h : c.Below a) : ¬c.Touches a := by
  have hbehind := c.currentVideo_behind
  have hcursor := h.currentVideo
  have hbuffer := h.buffer
  unfold Console.Touches
  omega

/-- A module takes four rows at most. -/
def moduleRows : ℕ := 4 * width

theorem announce_spec (h : c.Stands n m) (hroom : 2 * (n + moduleRows) ≤ pageLength)
    (hmodule : module < 2 ^ 64) (htarget : target < 2 ^ 64) (hsize : size < 2 ^ 64) :
    ∃ k, k + 7 + width ≤ n + moduleRows ∧ Printed c k m (announce c module target size m) := by
  have hwide : ∀ base value : ℕ, 10 ≤ base → value < 2 ^ 64 → value < base ^ 63 := by
    intro base value hbase hvalue
    exact (hvalue.trans (by norm_num)).trans_le (Nat.pow_le_pow_left hbase 63)
  have hlengths : (literal "  Will copy module at 0x").length = 24 ∧
      (literal " to 0x").length = 6 ∧ (literal " (").length = 2 ∧ (literal " bytes)").length = 7 := by
    decide +kernel
  obtain ⟨hcopy, hto, hopen, hclose⟩ := hlengths
  simp only [moduleRows, width] at hroom ⊢
  have hone := ncPrint_spec (literal "  Will copy module at 0x") h (by omega)
  obtain ⟨k₁, hk₁, htwo⟩ := ncPrintBase_spec (by decide) hone.stands
    (hwide 16 module (by decide) hmodule) (by simp only [bufferLength]; omega)
  simp only [bufferLength] at hk₁
  have hthree := ncPrint_spec (literal " to 0x") htwo.stands (by omega)
  obtain ⟨k₂, hk₂, hfour⟩ := ncPrintBase_spec (by decide) hthree.stands
    (hwide 16 target (by decide) htarget) (by simp only [bufferLength]; omega)
  simp only [bufferLength] at hk₂
  have hfive := ncPrint_spec (literal " (") hfour.stands (by omega)
  obtain ⟨k₃, hk₃, hsix⟩ := ncPrintBase_spec (by decide) hfive.stands
    (hwide 10 size (by decide) hsize) (by simp only [bufferLength]; omega)
  simp only [bufferLength] at hk₃
  have hseven := ncPrint_spec (literal " bytes)") hsix.stands (by omega)
  exact ⟨_, by omega, hone.trans <| htwo.trans <| hthree.trans <| hfour.trans <| hfive.trans <|
    hsix.trans hseven⟩

end Line

section Modules

/-- The modules that stand in the image from `module` on can be copied to the targets one after the
other: a copy does not start inside of the module that it copies, and runs over no module that
comes after it, neither where the module stands nor where it goes. -/
def Clear : ℕ → List ℕ → List (List UInt8) → Prop
  | _, _, [] => True
  | _, [], _ :: _ => False
  | module, target :: targets, contents :: modules =>
      (target ≤ module + 4 ∨ module + 4 + contents.length ≤ target) ∧
      Apart target contents.length (module + 4 + contents.length) (entries modules).length ∧
      (∀ p ∈ targets.zip modules, Apart target contents.length p.1 p.2.length) ∧
      Clear (module + 4 + contents.length) targets modules

/-- The address is outside of the places of all modules. -/
def Outside (targets : List ℕ) (modules : List (List UInt8)) (a : ℕ) : Prop :=
  ∀ p ∈ targets.zip modules, a < p.1 ∨ p.1 + p.2.length ≤ a

variable {c : Console} {m : ByteMemory} {n module target : ℕ} {targets : List ℕ}
  {contents : List UInt8} {modules : List (List UInt8)}

/-- One module gets to its place, and apart from what the console prints nothing else is written. -/
theorem loadModule_spec (hstands : c.Stands n m) (hroom : 2 * (n + moduleRows) ≤ pageLength)
    (hbelow : c.Below (module + 4)) (hbelow' : c.Below target) (hmodule : module + 4 < 2 ^ 64)
    (htarget : target < 2 ^ 64) (hholds : m.Holds module (entry contents))
    (hsize : contents.length < 2 ^ 32)
    (hclear : target ≤ module + 4 ∨ module + 4 + contents.length ≤ target) :
    ∃ m' k, loadModule c module target m = some (m', module + 4 + contents.length) ∧
      k ≤ n + moduleRows ∧ c.Stands k m' ∧
      ∀ a, ¬c.Touches a → m' a = m.store target contents a := by
  obtain ⟨hword, hbytes⟩ := ByteMemory.holds_append.mp hholds
  have hread : loadWord m module = contents.length := by
    rw [loadWord_of_holds hword, Nat.mod_eq_of_lt hsize]
  rw [LittleEndian.length_bytes] at hbytes
  have hword64 : contents.length < 2 ^ 64 := hsize.trans (by norm_num)
  obtain ⟨k₁, hk₁, hsaid⟩ := announce_spec hstands hroom hmodule htarget hword64
  obtain ⟨m₁, hm₁⟩ : ∃ m₁, announce c (module + 4) target contents.length m = m₁ := ⟨_, rfl⟩
  rw [hm₁] at hsaid
  -- The module still stands where it is copied from.
  have hbytes₁ : m₁.Holds (module + 4) contents := by
    rw [ByteMemory.holds_iff] at hbytes ⊢
    intro i hi
    rw [hsaid.same _ (hbelow.mono (Nat.le_add_right _ i)).spares, hbytes i hi]
  have hcopy : memcpy m₁ target (module + 4) contents.length = m₁.store target contents := by
    rw [memcpy_eq_store hclear, hbytes₁]
  have hcopied : c.Stands k₁ (m₁.store target contents) :=
    hsaid.stands.of_within (m₁.store_within target contents) (Or.inl hbelow'.currentVideo)
  have hdone : (literal " [Done]").length = 7 := by decide +kernel
  have hprinted := ncPrint_spec (literal " [Done]") hcopied (by omega)
  obtain ⟨m', k, hnewline, hk, hrow⟩ := ncNewline_spec hprinted.stands (by omega)
  refine ⟨m', k, ?_, by omega, hrow.stands, fun a ha => ?_⟩
  · simp only [loadModule, readUint32, hread, hm₁, hcopy, hnewline, Option.map_some]
  · rw [hrow.same a ha, hprinted.same a ha, ByteMemory.store_congr (hsaid.same a ha)]

/-- The modules that stand one behind the other in the memory get to their places, each of them
whole, and apart from what the console prints nothing else is written. -/
theorem loadLoop_spec (hstands : c.Stands n m)
    (hroom : 2 * (n + modules.length * moduleRows) ≤ pageLength) (hbelow : c.Below module)
    (hbelow' : ∀ target ∈ targets, c.Below target ∧ target < 2 ^ 64)
    (hend : module + (entries modules).length < 2 ^ 64) (hclear : Clear module targets modules)
    (hholds : m.Holds module (entries modules))
    (hsizes : ∀ contents ∈ modules, contents.length < 2 ^ 32) :
    ∃ m', loadLoop c modules.length module targets m = some m' ∧
      (∀ p ∈ targets.zip modules, m'.Holds p.1 p.2) ∧
      ∀ a, Outside targets modules a → ¬c.Touches a → m' a = m a := by
  induction modules generalizing n module targets m with
  | nil => exact ⟨m, by cases targets <;> rfl, by simp, fun _ _ _ => rfl⟩
  | cons contents modules ih =>
      cases targets with
      | nil => exact absurd hclear id
      | cons target targets =>
          obtain ⟨hcopy, hahead, hplaces, hrest⟩ := hclear
          obtain ⟨hfirst, hlater⟩ := ByteMemory.holds_append.mp hholds
          obtain ⟨htarget, htarget'⟩ := hbelow' target List.mem_cons_self
          rw [entries_cons, List.length_append, length_entry] at hend
          rw [List.length_cons, Nat.succ_mul modules.length] at hroom
          have hbehind : c.Below (module + 4 + contents.length) := hbelow.mono (by omega)
          obtain ⟨m₁, k, hload, hk, hstands₁, hsame₁⟩ := loadModule_spec hstands (by omega)
            (hbelow.mono (Nat.le_add_right _ 4)) htarget (by omega) htarget' hfirst
            (hsizes _ List.mem_cons_self) hcopy
          have hwithin := m.store_within target contents
          have hahead₁ : m₁.Holds (module + 4 + contents.length) (entries modules) := by
            rw [length_entry, ← add_assoc] at hlater
            have hstored := hwithin.holds hahead.symm hlater
            rw [ByteMemory.holds_iff] at hstored ⊢
            intro i hi
            rw [hsame₁ _ (hbehind.mono (Nat.le_add_right _ i)).spares, hstored i hi]
          obtain ⟨m', hloop, hloaded, hsame⟩ := ih hstands₁ (by omega) hbehind
            (fun q hq => hbelow' q (List.mem_cons_of_mem _ hq)) (by omega) hrest hahead₁
            fun q hq => hsizes q (List.mem_cons_of_mem _ hq)
          refine ⟨m', ?_, ?_, fun a ha hfree => ?_⟩
          · rw [List.length_cons, loadLoop, hload, Option.bind_some]
            exact hloop
          · intro p hp
            obtain rfl | hp := List.mem_cons.mp hp
            · -- The later copies stay off the place of this module.
              rw [ByteMemory.holds_iff]
              intro i hi
              have hinside : i < contents.length := hi
              have hfree : ¬c.Touches (target + i) := (htarget.mono (Nat.le_add_right _ i)).spares
              rw [hsame _ ?_ hfree, hsame₁ _ hfree, ByteMemory.store_at _ _ hi]
              intro q hq
              have hapart := hplaces q hq
              unfold Apart at hapart
              omega
            · exact hloaded p hp
          · have hfar := ha _ List.mem_cons_self
            rw [hsame a (fun p hp => ha p (List.mem_cons_of_mem _ hp)) hfree, hsame₁ a hfree,
              hwithin.apply hfar]

/-- What the packer wrote behind the kernel is what the loader reads. -/
theorem loadModules_payload {payloadStart : ℕ} (hstands : c.Stands 0 m)
    (hroom : 2 * (modules.length * moduleRows) ≤ pageLength) (hbelow : c.Below payloadStart)
    (hbelow' : ∀ target ∈ targets, c.Below target ∧ target < 2 ^ 64)
    (hend : payloadStart + (payload modules).length < 2 ^ 64)
    (hclear : Clear (payloadStart + 4) targets modules)
    (hholds : m.Holds payloadStart (payload modules)) (hcount : modules.length < 2 ^ 32)
    (hsizes : ∀ contents ∈ modules, contents.length < 2 ^ 32) :
    ∃ m', loadModules c payloadStart targets m = some m' ∧
      (∀ p ∈ targets.zip modules, m'.Holds p.1 p.2) ∧
      ∀ a, Outside targets modules a → ¬c.Touches a → m' a = m a := by
  obtain ⟨hword, hentries⟩ := ByteMemory.holds_append.mp hholds
  have hread : loadWord m payloadStart = modules.length := by
    rw [loadWord_of_holds hword, Nat.mod_eq_of_lt hcount]
  rw [LittleEndian.length_bytes] at hentries
  rw [length_payload, ← add_assoc] at hend
  obtain ⟨m', hloop, hrest⟩ := loadLoop_spec hstands (by rwa [Nat.zero_add])
    (hbelow.mono (Nat.le_add_right _ 4)) hbelow' hend hclear hentries hsizes
  refine ⟨m', ?_, hrest⟩
  rw [loadModules, readUint32, hread]
  exact hloop

end Modules

end SoKernel.Image
