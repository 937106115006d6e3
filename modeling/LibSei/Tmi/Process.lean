-- SUMMARY: A process of several threads that share its memory and its ignore state.
import LibSei.Tmi.Phases

/-!
# Processes

Every thread has a library state and buffers of its own. Memory is shared, and so are the
global variables of the interface, which say what addresses are ignored.
-/

namespace LibSei

open Memory Control

/-- A process with a thread for every number; threads not started yet are among them. -/
@[ext] structure Process where
  threads : Nat → SeiThread
  ignore : Ignore
  machine : Machine

namespace Process

/-- A process whose threads have all called `__sei_thread_init`. -/
def init (b : Build) (mem : Mem) : Process := ⟨fun _ => SeiThread.init b, Ignore.init, ⟨mem, 0, []⟩⟩

/-- What thread `i` works on. -/
def tmi (s : Process) (i : Nat) : Tmi := ⟨s.threads i, s.ignore, s.machine⟩

/-- The process after a step of thread `i`. -/
def set (s : Process) (i : Nat) (t : Tmi) : Process :=
  ⟨Function.update s.threads i t.toSeiThread, t.ignore, t.machine⟩

variable {s : Process} {i j : Nat} {t : Tmi}

@[simp] theorem threads_set_self : (s.set i t).threads i = t.toSeiThread :=
  Function.update_self _ _ _

@[simp] theorem tmi_set_self : (s.set i t).tmi i = t := by
  rw [tmi, threads_set_self]
  rfl

theorem threads_set_of_ne (h : j ≠ i) : (s.set i t).threads j = s.threads j :=
  Function.update_of_ne h _ _

theorem tmi_set_of_ne (h : j ≠ i) :
    (s.set i t).tmi j = { s.tmi j with ignore := t.ignore, machine := t.machine } := by
  rw [tmi, threads_set_of_ne h]
  rfl

end Process

end LibSei
