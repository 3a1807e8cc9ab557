import SoKernel.Image.KernelLib

/-!
# The packed image

Embedding of the tool that appends the modules to the kernel: behind the bytes of the kernel stand
the number of modules and, for each of them, its size and its bytes. A size takes four bytes. The
tool reads a file in pieces until the end of the file shows.
-/

namespace SoKernel.Image

section Model

/-- A file open for reading: what was not read yet, and the end-of-file indicator. -/
structure Stream where
  rest : List UInt8
  eof : Bool

/-- `fopen(name, "r")` of a file with the contents. -/
def fopen (contents : List UInt8) : Stream := ⟨contents, false⟩

/-- `fread(buffer, 1, n, source)`. A read that gets less than `n` bytes sets the indicator. -/
def fread (n : ℕ) (source : Stream) : List UInt8 × Stream :=
  (source.rest.take n, ⟨source.rest.drop n, source.eof || decide (source.rest.length < n)⟩)

/-- `BUFFER_SIZE`. -/
def bufferSize : ℕ := 128

/-- `write_file`, with what the target holds so far. -/
def writeFile (target : List UInt8) (source : Stream) : List UInt8 :=
  if source.eof then
    target
  else
    writeFile (target ++ (fread bufferSize source).1) (fread bufferSize source).2
termination_by source.rest.length + if source.eof then 0 else 1
decreasing_by
  rename_i heof
  by_cases hshort : source.rest.length < bufferSize
  · simp [fread, hshort, heof]
  · have : bufferSize = 128 := rfl
    simp [fread, hshort, heof]
    omega

/-- `write_size`: `st_size` as a `uint32_t`. -/
def writeSize (target contents : List UInt8) : List UInt8 :=
  target ++ LittleEndian.bytes 4 contents.length

/-- One turn of the loop over the modules. -/
def writeModule (target contents : List UInt8) : List UInt8 :=
  writeFile (writeSize target contents) (fopen contents)

/-- `buildImage`, given the contents of the files of `fileArray`. `parse_opt` asks for one. -/
def buildImage : List (List UInt8) → List UInt8
  | [] => []
  | kernel :: modules =>
      modules.foldl writeModule
        (writeFile [] (fopen kernel) ++ LittleEndian.bytes 4 modules.length)

/-- `checkFiles`. A file that cannot be read has no contents here. -/
def checkFiles (fileArray : List (Option (List UInt8))) : Bool := fileArray.all Option.isSome

/-- `main`: the exit code, and what the target holds if it was created. -/
def packerMain (canCreate : Bool) (fileArray : List (Option (List UInt8))) :
    ℕ × Option (List UInt8) :=
  if checkFiles fileArray then
    if canCreate then (0, some (buildImage (fileArray.filterMap id))) else (1, none)
  else
    (1, none)

end Model

section Format

/-- A module in the image. -/
def entry (contents : List UInt8) : List UInt8 :=
  LittleEndian.bytes 4 contents.length ++ contents

/-- The modules in the image. -/
def entries (modules : List (List UInt8)) : List UInt8 := modules.flatMap entry

/-- What stands behind the kernel. -/
def payload (modules : List (List UInt8)) : List UInt8 :=
  LittleEndian.bytes 4 modules.length ++ entries modules

@[simp] theorem length_entry (contents : List UInt8) :
    (entry contents).length = 4 + contents.length := by
  simp [entry]

@[simp] theorem entries_nil : entries [] = [] := rfl

@[simp] theorem entries_cons (contents : List UInt8) (modules : List (List UInt8)) :
    entries (contents :: modules) = entry contents ++ entries modules := rfl

@[simp] theorem length_payload (modules : List (List UInt8)) :
    (payload modules).length = 4 + (entries modules).length := by
  simp [payload]

/-- The pieces make the whole file, also when its size is a multiple of the buffer's. -/
theorem writeFile_eq (target : List UInt8) (source : Stream) (heof : source.eof = false) :
    writeFile target source = target ++ source.rest := by
  induction target, source using writeFile.induct with
  | case1 target source h => simp [h] at heof
  | case2 target source h ih =>
      rw [writeFile, if_neg h]
      by_cases hshort : source.rest.length < bufferSize
      · have hend : (fread bufferSize source).2.eof = true := by simp [fread, hshort]
        rw [writeFile, if_pos hend, fread, List.take_of_length_le hshort.le]
      · have hmore : (fread bufferSize source).2.eof = false := by simp [fread, hshort, heof]
        rw [ih hmore, List.append_assoc, fread, List.take_append_drop]

theorem writeModule_eq (target contents : List UInt8) :
    writeModule target contents = target ++ entry contents := by
  rw [writeModule, writeFile_eq _ _ rfl, writeSize, entry, List.append_assoc]
  rfl

theorem buildImage_eq (kernel : List UInt8) (modules : List (List UInt8)) :
    buildImage (kernel :: modules) = kernel ++ payload modules := by
  have hloop : ∀ target, modules.foldl writeModule target = target ++ entries modules := by
    induction modules with
    | nil => simp
    | cons contents modules ih =>
        intro target
        rw [List.foldl_cons, ih, writeModule_eq, entries_cons, List.append_assoc]
  rw [buildImage, hloop, writeFile_eq _ _ rfl, payload, List.append_assoc]
  rfl

theorem packerMain_readable (contents : List (List UInt8)) :
    packerMain true (contents.map some) = (0, some (buildImage contents)) := by
  have hfiles : checkFiles (contents.map some) = true := by simp [checkFiles]
  have hall : (contents.map some).filterMap id = contents := by simp [List.filterMap_map]
  rw [packerMain, if_pos hfiles, hall]
  rfl

/-- When the tool ends well, it could read every file, and the target holds the image of them. -/
theorem packerMain_eq_zero {canCreate : Bool} {files : List (Option (List UInt8))}
    {target : Option (List UInt8)} (h : packerMain canCreate files = (0, target)) :
    ∃ contents, files = contents.map some ∧ target = some (buildImage contents) := by
  by_cases hfiles : checkFiles files = true
  · have hsome : ∀ file ∈ files, file.isSome := List.all_eq_true.mp hfiles
    have hcontents : files = (files.filterMap id).map some := by
      clear h hfiles
      induction files with
      | nil => rfl
      | cons file files ih =>
          obtain ⟨contents, rfl⟩ := Option.isSome_iff_exists.mp (hsome file List.mem_cons_self)
          have htail := ih fun f hf => hsome f (List.mem_cons_of_mem _ hf)
          exact congrArg (some contents :: ·) htail
    refine ⟨_, hcontents, ?_⟩
    rw [packerMain, if_pos hfiles] at h
    cases canCreate with
    | true => exact (Prod.mk.inj h).2.symm
    | false => exact absurd (Prod.mk.inj h).1 (by decide)
  · rw [packerMain, if_neg hfiles] at h
    exact absurd (Prod.mk.inj h).1 (by decide)

end Format

end SoKernel.Image
