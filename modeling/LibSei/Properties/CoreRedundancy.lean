-- SUMMARY: The cores on which the phases of a transaction run: those the system picks in the first phase, and one more.
import LibSei.Cores.Thread

/-!
# The cores of the phases

With `EXECUTION_CORE_REDUNDANCY=1` the thread is moved to another core after the first phase
and pinned to it. It is not moved again before the commit, so all later phases run there. In the
first phase the thread may not be pinned, and only the core it is on at the end of this phase is
remembered: the core it is moved to may be one that the phase has run on, and when the phases
disagree the cores it ran on before are not blacklisted.
-/

namespace LibSei

open Control

namespace CoreThread

variable {f : CoreOptions} {env : Env} {b : Build} {t : CoreThread} {tmi : Tmi} {rbp k n new : Nat}
  {os : Nat → List Op} {rss : List (List (Option Int32))} {moves : Nat → List Nat}

end CoreThread

end LibSei
