-- SUMMARY: The states of a thread inside a transaction, through all phases and attempts, and between transactions.
import LibSei.ModeCow.Sequence
import LibSei.Tmi.Phases

/-!
# Transactions at the thread interface

A transaction starts with `__sei_begin`. From then on the thread makes operations, ends
phases, and starts over when the phases disagree or a `SIGSEGV` arrives, until a commit.
Whatever happens on the way, the parts of the state that belong to no phase of the
transaction stay as they were.
-/

namespace LibSei

open Memory Control

namespace Tmi

/-- Between transactions, set to `n` phases: nothing is left of earlier transactions. -/
structure Between (b : Build) (n : Nat) (t : Tmi) : Prop where
  idle : t.world.Idle b n
  clear : t.world.Clear b
  tbin : ∀ j < b.redundancy, t.sei.tbin.nitems j = 0
  wts : ∀ j < b.redundancy, t.sei.wts.nitems j = 0
  abuf : t.locks.abuf.Empty
  abufSc : t.abufSc.Empty
  ignoreNum : t.ignore.num = 0

theorem between_init (b : Build) (mem : Mem) : (Tmi.init b mem).Between b b.redundancy where
  idle := World.idle_init b mem
  clear := World.clear_init b mem
  tbin _ _ := rfl
  wts _ _ := rfl
  abuf := ⟨rfl, rfl⟩
  abufSc := ⟨rfl, rfl⟩
  ignoreNum := rfl

/-- The states of a transaction begun in `t0`. A `SIGSEGV` may arrive after any operation. -/
inductive InTransaction (env : Env) (b : Build) (rbp : Nat) (t0 : Tmi) : Tmi → Prop where
  | begin : InTransaction env b rbp t0 (t0.seiBegin rbp)
  | op {t o r t'} (h : InTransaction env b rbp t0 t) (hop : t.op env b o = .ok (r, t')) :
      InTransaction env b rbp t0 t'
  | commit {t next t'} (h : InTransaction env b rbp t0 t)
      (hcommit : t.seiCommit env b = .ok (next, t')) (hnext : next ≠ .committed) :
      InTransaction env b rbp t0 t'
  | sigsegv {t t'} (h : InTransaction env b rbp t0 t) (hsegv : t.protectHandler env b = .ok t') :
      InTransaction env b rbp t0 t'

/-- Inside a transaction of `n` phases begun in `t0`. -/
structure Within (n : Nat) (t0 t : Tmi) : Prop where
  p_nonneg : 0 ≤ t.sei.p
  p_lt : t.sei.p < n
  level : t.sei.redundancyLevel = n
  cow : ∀ j, n ≤ j → t.sei.cow j = t0.sei.cow j
  talloc_p : (t.sei.talloc.p : Int) = t.sei.p
  talloc_level : t.sei.talloc.redundancyLevel = n
  talloc_size : ∀ j, n ≤ j → t.sei.talloc.size j = t0.sei.talloc.size j
  tbin_level : t.sei.tbin.redundancyLevel = n
  tbin : ∀ j, n ≤ j → t.sei.tbin.nitems j = t0.sei.tbin.nitems j
  wts : ∀ j, 2 ≤ j → t.sei.wts.nitems j = t0.sei.wts.nitems j
  obuf_p : (t.sei.obuf.p : Int) = t.sei.p
  obuf_level : t.sei.obuf.redundancyLevel = n
  cf : ∀ i, n ≤ i → t.sei.cf i = t0.sei.cf i

section Steps

variable {env : Env} {b : Build} {n rbp : Nat} {t0 t t' : Tmi}

theorem Between.within (h : t0.Between b n) : Within n t0 (t0.seiBegin rbp) := by
  have hn := h.idle.two_le
  have hbegin := World.beginPhase_of_idle h.idle.p
  have hlevel : t0.sei.redundancyLevel = n := h.idle.level
  rw [seiBegin, hbegin]
  exact {
    p_nonneg := le_refl 0
    p_lt := by show (0 : Int) < n; omega
    level := hlevel
    cow := fun _ _ => rfl
    talloc_p := congrArg Nat.cast h.idle.talloc_p
    talloc_level := h.idle.talloc_level
    talloc_size := fun _ _ => rfl
    tbin_level := h.idle.tbin_level
    tbin := fun _ _ => rfl
    wts := fun _ _ => rfl
    obuf_p := congrArg Nat.cast h.idle.obuf_p
    obuf_level := h.idle.obuf_level
    cf := fun i hi => if_neg (by rw [hlevel]; omega) }

theorem Within.keeps (h : Within n t0 t) (hk : t.Keeps t') : Within n t0 t' := by
  have hf := hk.frame
  have hlt := h.p_lt
  have htalloc := h.talloc_p
  exact {
    p_nonneg := hf.p ▸ h.p_nonneg
    p_lt := hf.p ▸ h.p_lt
    level := hf.level.trans h.level
    cow := fun j hj => (hf.cow j (by show (j : Int) ≠ t.sei.p; omega)).trans (h.cow j hj)
    talloc_p := by rw [hf.talloc_p, hf.p]; exact h.talloc_p
    talloc_level := hf.talloc_level.trans h.talloc_level
    talloc_size := fun j hj =>
      (hf.talloc_size j (by show j ≠ t.sei.talloc.p; omega)).trans (h.talloc_size j hj)
    tbin_level := hf.tbin_level.trans h.tbin_level
    tbin := fun j hj => (hf.tbin_nitems j (by show (j : Int) ≠ t.sei.p; omega)).trans (h.tbin j hj)
    wts := fun j hj => (hk.wts j hj).trans (h.wts j hj)
    obuf_p := by rw [hf.obuf_p, hf.p]; exact h.obuf_p
    obuf_level := hf.obuf_level.trans h.obuf_level
    cf := fun i hi => (congrFun hf.cf i).trans (h.cf i hi) }

theorem Within.switchPhase (h : Within n t0 t) (hp : t.sei.p < t.sei.redundancyLevel - 1)
    (hrun : t.switchPhase env b = .ok t') : Within n t0 t' := by
  simp only [Tmi.switchPhase, World.switch, Talloc.switch, bind_eq_ok, pure_eq_ok,
    Except.ok.injEq] at hrun
  obtain ⟨_, ⟨_, _, _, ⟨_, _, _, _, rfl⟩, _, hbounds, _, _, rfl⟩, rfl⟩ := hrun
  have hlt := h.p_lt
  have hnonneg := h.p_nonneg
  have hlevel := h.level
  have hobuf := h.obuf_p
  have hmod : (t.sei.obuf.p + 1) % t.sei.obuf.redundancyLevel = t.sei.obuf.p + 1 := by
    rw [h.obuf_level]
    exact Nat.mod_eq_of_lt (by omega)
  exact {
    p_nonneg := by show 0 ≤ t.sei.p + 1; omega
    p_lt := by show t.sei.p + 1 < n; omega
    level := h.level
    cow := fun j hj => (Function.update_of_ne (by omega) _ _).trans (h.cow j hj)
    talloc_p := by
      show ((t.sei.talloc.p + 1 : Nat) : Int) = t.sei.p + 1
      rw [← h.talloc_p]
      rfl
    talloc_level := h.talloc_level
    talloc_size := h.talloc_size
    tbin_level := h.tbin_level
    tbin := h.tbin
    wts := h.wts
    obuf_p := by
      show (((t.sei.obuf.p + 1) % t.sei.obuf.redundancyLevel : Nat) : Int) = t.sei.p + 1
      rw [hmod, ← hobuf]
      rfl
    obuf_level := h.obuf_level
    cf := h.cf }

/-- Recovery ends up within the transaction again. -/
theorem Within.rollback {w : World} (h : Within n t0 t) (hn : 0 < n)
    (hrun : t.world.recover env b = .ok w) : Within n t0 (t.setWorld w) := by
  simp only [World.recover, World.rollback, bind_eq_ok, pure_eq_ok, Except.ok.injEq] at hrun
  obtain ⟨⟨a0, mem⟩, _, rfl⟩ := hrun
  have hlevel := h.level
  exact {
    p_nonneg := le_refl 0
    p_lt := by show (0 : Int) < n; omega
    level := h.level
    cow := fun j hj => by
      show World.cleanAll t.sei.redundancyLevel (Function.update t.sei.cow 0 a0) j = _
      rw [World.cleanAll_of_ge (by omega), Function.update_of_ne (by omega)]
      exact h.cow j hj
    talloc_p := rfl
    talloc_level := h.talloc_level
    talloc_size := fun j hj => by
      show (if j < t.sei.talloc.redundancyLevel then 0 else t.sei.talloc.size j) = _
      rw [h.talloc_level, if_neg (by omega)]
      exact h.talloc_size j hj
    tbin_level := h.tbin_level
    tbin := fun j hj => by
      show (if j < t.sei.tbin.redundancyLevel then 0 else t.sei.tbin.nitems j) = _
      rw [h.tbin_level, if_neg (by omega)]
      exact h.tbin j hj
    wts := fun j hj => by
      show Function.update (Function.update t.sei.wts.nitems 0 0) 1 0 j = _
      rw [Function.update_of_ne (by omega), Function.update_of_ne (by omega)]
      exact h.wts j hj
    obuf_p := rfl
    obuf_level := h.obuf_level
    cf := fun i hi => by
      show (if i < t.sei.redundancyLevel then Cfc.reset else t.sei.cf i) = _
      rw [if_neg (by omega)]
      exact h.cf i hi }

theorem Within.tryCommit {w : World} {r : Bool} (h : Within n t0 t)
    (hrun : t.world.tryCommit env b = .ok (r, w)) : Within n t0 (t.setWorld w) := by
  have hcf := World.tryCommit_cf hrun
  have hlevel := h.level
  obtain ⟨cf, rfl, _⟩ := World.tryCommit_spec hrun
  exact { h with
    cow := fun j hj => (if_neg (by show ¬ j < t.sei.redundancyLevel; omega)).trans (h.cow j hj)
    cf := fun i hi => (hcf i (by show t.sei.redundancyLevel ≤ i; omega)).trans (h.cf i hi) }

/-- Neither the ignore state nor the buffers of the thread belong to the library state. -/
theorem Within.congr (h : Within n t0 t) (hsei : t'.sei = t.sei) : Within n t0 t' := by
  obtain ⟨⟨sei, high, abufSc, sysCalls, locks⟩, ignore, machine⟩ := t'
  simp only at hsei
  subst hsei
  exact { h with }

/-- All states of a transaction are within it. -/
theorem InTransaction.within (h : InTransaction env b rbp t0 t) (hbetween : t0.Between b n) :
    Within n t0 t := by
  have hn := hbetween.idle.two_le
  induction h with
  | begin => exact hbetween.within
  | op h hop ih => exact ih.keeps (Tmi.op_keeps hop)
  | @commit t next t' h hcommit hnext ih =>
    rcases Tmi.seiCommit_cases hcommit with ⟨_, hp, hswitch⟩ | ⟨_, _, w, htry, hretry⟩ | ⟨hdone, _⟩
    · exact Within.switchPhase (t := { t with ignore := t.ignore.reset }) (ih.congr rfl) hp hswitch
    · simp only [Tmi.retryCommit, bind_eq_ok, pure_eq_ok, Except.ok.injEq] at hretry
      obtain ⟨w', hrecover, rfl⟩ := hretry
      have htried := ih.tryCommit htry
      exact (htried.rollback (by omega) hrecover).congr rfl
    · exact absurd hdone hnext
  | sigsegv h hsegv ih =>
    simp only [Tmi.protectHandler, bind_eq_ok, pure_eq_ok, Except.ok.injEq] at hsegv
    obtain ⟨_, _, w, hrecover, rfl⟩ := hsegv
    exact ih.rollback (by omega) hrecover

/-- The library state after the commit of a transaction. -/
theorem Within.commit {w : World} (h : Within n t0 t) (hbetween : t0.Between b n)
    (hlast : t.sei.redundancyLevel - 1 ≤ t.sei.p) (hrun : t.world.commit env b = .ok w) :
    w.Idle b n ∧ w.Clear b ∧ (∀ j < b.redundancy, w.sei.tbin.nitems j = 0) ∧
      ∀ j < b.redundancy, w.sei.wts.nitems j = 0 := by
  obtain ⟨hend, hp, hobuf⟩ := World.commit_ended hrun
  obtain ⟨htbin, hwts⟩ := World.commit_nitems hrun
  have hn := hbetween.idle.two_le
  have hle := hbetween.idle.le
  have hlevel := h.level
  have hlt := h.p_lt
  have hobuf_p := h.obuf_p
  have hcow : ∀ j < b.redundancy, (w.sei.cow j).Empty := fun j hj => by
    rcases Nat.lt_or_ge j n with hlo | hhi
    · exact hend.cow_of_lt j (by show j < t.sei.redundancyLevel; omega)
    · rw [hend.cow_of_ge j (by show t.sei.redundancyLevel ≤ j; omega)]
      exact (congrArg Abuf.Empty (h.cow j hhi)).mpr (hbetween.clear.cow j hj)
  have hsize : ∀ j < b.redundancy, w.sei.talloc.size j = 0 := fun j hj => by
    have htalloc : t.world.sei.talloc.redundancyLevel = n := h.talloc_level
    rw [hend.talloc_size j]
    split
    · rfl
    · next hge => exact (h.talloc_size j (by omega)).trans (hbetween.clear.size j hj)
  refine ⟨?_, ⟨hcow, hsize⟩, fun j hj => ?_, hwts⟩
  · exact {
      two_le := hn
      le := hle
      p := hp
      level := hend.level.trans hlevel
      cow := fun j hj => hcow j (by omega)
      talloc_p := hend.talloc_p
      talloc_level := hend.talloc_level.trans h.talloc_level
      talloc_size := fun j hj => hsize j (by omega)
      tbin_level := hend.tbin_level.trans h.tbin_level
      obuf_p := by
        have hlast' : t.sei.obuf.p + 1 = t.sei.obuf.redundancyLevel := by
          rw [h.obuf_level]
          omega
        rw [hobuf, Obuf.close, hlast', Nat.mod_self]
      obuf_level := hend.obuf_level.trans h.obuf_level }
  · have htbin_level : t.world.sei.tbin.redundancyLevel = n := h.tbin_level
    rw [htbin j]
    split
    · rfl
    · next hge => exact (h.tbin j (by omega)).trans (hbetween.tbin j hj)

/-- The same with the answer of `sei_try_commit` before it. -/
theorem Within.committed {w : World} (h : Within n t0 t) (hbetween : t0.Between b n)
    (hlast : t.sei.redundancyLevel - 1 ≤ t.sei.p) (hrun : World.Committed env b t.world w) :
    w.Idle b n ∧ w.Clear b ∧ (∀ j < b.redundancy, w.sei.tbin.nitems j = 0) ∧
      ∀ j < b.redundancy, w.sei.wts.nitems j = 0 := by
  rcases hrun with ⟨_, hrun⟩ | ⟨_, w1, htry, hrun⟩
  · exact h.commit hbetween hlast hrun
  · have htried := h.tryCommit htry
    have hlast' : w1.sei.redundancyLevel - 1 ≤ w1.sei.p := by
      obtain ⟨_, rfl, _⟩ := World.tryCommit_spec htry
      exact hlast
    exact htried.commit hbetween hlast' hrun

/-- A transaction that commits leaves the thread as one finds it between transactions. -/
theorem InTransaction.committed (h : InTransaction env b rbp t0 t) (hbetween : t0.Between b n)
    (hcommit : t.seiCommit env b = .ok (.committed, t')) : t'.Between b n := by
  rcases Tmi.seiCommit_cases hcommit with ⟨hnext, _⟩ | ⟨hnext, _⟩ | ⟨_, hlast, w, hrun, hleave⟩
  · cases hnext
  · cases hnext
  simp only [Tmi.leave, LockState.release, bind_eq_ok, pure_eq_ok, Except.ok.injEq] at hleave
  obtain ⟨_, _, _, ⟨_, _, rfl⟩, rfl⟩ := hleave
  obtain ⟨hidle, hclear, htbin, hwts⟩ := (h.within hbetween).committed hbetween hlast hrun
  exact ⟨hidle, hclear, htbin, hwts, Abuf.empty_clean _, Abuf.empty_clean _, rfl⟩

end Steps

end Tmi

end LibSei
