import SoKernel.Ipc.Semaphore
import SoKernel.Userland.Stdio

/-!
# Named semaphores of the user library

Embedding of the registry of `lib_process.c`. All processes run in one address space, so
that they share the table of names.
-/

namespace SoKernel.Userland

open Function (update)

def maxUserSems : ℕ := 8

/-- `user_sem_names` and `user_sem_ids`, with `none` for `NULL`. -/
structure SemRegistry where
  names : ℕ → Option (List Char)
  ids : ℕ → ℕ

/-- The static tables before the first call. -/
def SemRegistry.empty : SemRegistry := ⟨fun _ => none, fun _ => 0⟩

/-- The kernel and the memory of the user library that the processes share. -/
structure System where
  kernel : Kernel
  registry : SemRegistry

/-- `find_sem_index`. -/
def findSemIndex (r : SemRegistry) (name : List Char) : Option ℕ :=
  (List.range maxUserSems).find? fun i => decide (r.names i = some name)

/-- `find_free_sem_slot`. -/
def findFreeSemSlot (r : SemRegistry) : Option ℕ :=
  (List.range maxUserSems).find? fun i => (r.names i).isNone

/-- `syscall_sem_create`. -/
def syscallSemCreate (k : Kernel) (initial : ℤ) : ℕ × Kernel :=
  if initial < 0 then (0, k) else semAlloc k initial

/-- `my_sem_open`. The flag tells whether `malloc` has room for the copy of the name. -/
def mySemOpen (u : System) (semId : List Char) (initialValue : ℕ) (copied : Bool) :
    ℤ × System :=
  match findSemIndex u.registry semId with
  | some i => (1, { u with kernel := (semOpenById u.kernel (u.registry.ids i)).2 })
  | none =>
      match findFreeSemSlot u.registry with
      | none => (0, u)
      | some i =>
          let (id, k) := syscallSemCreate u.kernel (signed 32 initialValue)
          if id = 0 then (0, { u with kernel := k })
          else if copied then
            (1, ⟨k, update u.registry.names i (some semId), update u.registry.ids i id⟩)
          else (0, { u with kernel := (semCloseById k id).2 })

/-- The semaphore of the kernel that `my_sem_wait` and `my_sem_post` act on, `none` when they
return `0` without a system call. -/
def semTarget (r : SemRegistry) (semId : List Char) : Option ℕ :=
  (findSemIndex r semId).map r.ids

/-- `my_sem_close`. -/
def mySemClose (u : System) (semId : List Char) : ℤ × System :=
  match findSemIndex u.registry semId with
  | none => (0, u)
  | some i =>
      let (res, k) := semCloseById u.kernel (u.registry.ids i)
      (res, ⟨k, update u.registry.names i none, update u.registry.ids i 0⟩)

end SoKernel.Userland
