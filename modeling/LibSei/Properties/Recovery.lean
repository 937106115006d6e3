-- SUMMARY: What a new attempt starts from: the bookkeeping after the retry loop of `__sei_commit` and after the `SIGSEGV` handler.
import LibSei.Tmi.Transaction

/-!
# Recovery at the thread interface

A transaction is started over in two places. The retry loop of `__sei_commit` comes after
the ignore state has been reset and cleans the buffers of the thread; the handler of
`SIGSEGV` does neither. Both call `sei_rollback`. The results here compare what they leave
with what the transaction began with.
-/

namespace LibSei

open Memory Control

/-- The bookkeeping of the library for a transaction: the phase, and the counters of its
structures. What lies behind a counter is never read. -/
@[ext] structure SeiBook where
  p : Int
  cow : Nat → Nat × Nat
  tbin : Nat → Nat
  tallocP : Nat
  tallocSize : Nat → Nat
  wts : Nat → Nat
  obufP : Nat
  cf : Nat → Cfc

/-- The bookkeeping of a thread for a transaction. -/
@[ext] structure Bookkeeping where
  sei : SeiBook
  abuf : Nat × Nat
  abufSc : Nat × Nat
  ignoreNum : Nat
  writeDisable : Int

def Abuf.counters (a : Abuf) : Nat × Nat := (a.pushed, a.poped)

def Sei.book (s : Sei) : SeiBook where
  p := s.p
  cow j := (s.cow j).counters
  tbin := s.tbin.nitems
  tallocP := s.talloc.p
  tallocSize := s.talloc.size
  wts := s.wts.nitems
  obufP := s.obuf.p
  cf := s.cf

namespace Tmi

def bookkeeping (t : Tmi) : Bookkeeping where
  sei := t.sei.book
  abuf := t.locks.abuf.counters
  abufSc := t.abufSc.counters
  ignoreNum := t.ignore.num
  writeDisable := t.ignore.writeDisable

section Recovery

variable {env : Env} {b : Build} {n rbp : Nat} {t0 t t' : Tmi}

theorem counters_of_empty {a : Abuf} (h : a.Empty) : a.counters = (0, 0) :=
  Prod.ext h.pushed h.poped

theorem empty_iff_counters {a : Abuf} : a.Empty ↔ a.counters = (0, 0) :=
  ⟨counters_of_empty, fun h => ⟨congrArg Prod.fst h, congrArg Prod.snd h⟩⟩

/-- The bookkeeping of the library at `__sei_begin`. -/
theorem Between.book_seiBegin (h : t0.Between b n) : (t0.seiBegin rbp).sei.book =
    { t0.sei.book with p := 0, cf := fun i => if i < n then Cfc.reset else t0.sei.cf i } := by
  have hbegin := World.beginPhase_of_idle h.idle.p
  have hlevel : t0.sei.redundancyLevel = n := h.idle.level
  rw [seiBegin, hbegin, hlevel]
  rfl

/-- `sei_rollback` brings the bookkeeping of the library back to what it was at
`__sei_begin`, from any state of the transaction. -/
theorem Within.book_recover {w : World} (h : Within n t0 t) (hbetween : t0.Between b n)
    (hrun : t.world.recover env b = .ok w) : w.sei.book = (t0.seiBegin rbp).sei.book := by
  have hn := hbetween.idle.two_le
  have hle := hbetween.idle.le
  have hlevel := h.level
  have htalloc := h.talloc_level
  have htbin := h.tbin_level
  simp only [World.recover, World.rollback, bind_eq_ok, pure_eq_ok, Except.ok.injEq] at hrun
  obtain ⟨⟨a0, mem⟩, _, rfl⟩ := hrun
  rw [hbetween.book_seiBegin]
  refine SeiBook.ext rfl ?_ ?_ hbetween.idle.talloc_p.symm ?_ ?_ hbetween.idle.obuf_p.symm ?_
  · funext j
    show (World.cleanAll t.sei.redundancyLevel (Function.update t.sei.cow 0 a0) j).counters =
      (t0.sei.cow j).counters
    rcases Nat.lt_or_ge j n with hlt | hge
    · rw [counters_of_empty (hbetween.clear.cow j (by omega)), World.cleanAll, if_pos (by omega)]
      rfl
    · rw [World.cleanAll_of_ge (by omega), Function.update_of_ne (by omega), h.cow j hge]
  · funext j
    show (if j < t.sei.tbin.redundancyLevel then 0 else t.sei.tbin.nitems j) = t0.sei.tbin.nitems j
    split
    · exact (hbetween.tbin j (by omega)).symm
    · exact h.tbin j (by omega)
  · funext j
    show (if j < t.sei.talloc.redundancyLevel then 0 else t.sei.talloc.size j) = t0.sei.talloc.size j
    split
    · exact (hbetween.clear.size j (by omega)).symm
    · exact h.talloc_size j (by omega)
  · funext j
    show Function.update (Function.update t.sei.wts.nitems 0 0) 1 0 j = t0.sei.wts.nitems j
    rcases Nat.lt_or_ge j 2 with hlt | hge
    · have hzero := hbetween.wts j (by omega)
      rw [hzero]
      interval_cases j <;> rfl
    · rw [Function.update_of_ne (by omega), Function.update_of_ne (by omega)]
      exact h.wts j hge
  · funext i
    show (if i < t.sei.redundancyLevel then Cfc.reset else t.sei.cf i) =
      if i < n then Cfc.reset else t0.sei.cf i
    rw [hlevel]
    split
    · rfl
    · exact h.cf i (by omega)

/-- From any state of a transaction, the retry loop starts a new attempt with the
bookkeeping of `__sei_begin` exactly when writes were not disabled there. The handler of
`SIGSEGV` does so exactly when nothing had been recorded in the buffers of the thread and
the ignore state was as at `__sei_begin`. -/
theorem bookkeeping_recovered_iff (hbetween : t0.Between b n)
    (h : InTransaction env b rbp t0 t) :
    (∀ t', t.seiCommit env b = .ok (.retry, t') →
      (t'.bookkeeping = (t0.seiBegin rbp).bookkeeping ↔ t0.ignore.writeDisable = 0)) ∧
    ∀ t', t.protectHandler env b = .ok t' →
      (t'.bookkeeping = (t0.seiBegin rbp).bookkeeping ↔ t.locks.abuf.Empty ∧ t.abufSc.Empty ∧
        t.ignore.num = 0 ∧ t.ignore.writeDisable = t0.ignore.writeDisable) := by
  have hwithin := h.within hbetween
  have habuf : t0.locks.abuf.counters = (0, 0) := counters_of_empty hbetween.abuf
  have habufSc : t0.abufSc.counters = (0, 0) := counters_of_empty hbetween.abufSc
  have hnum := hbetween.ignoreNum
  constructor
  · intro t' hcommit
    rcases Tmi.seiCommit_cases hcommit with ⟨hnext, _⟩ | ⟨_, _, w, htry, hretry⟩ | ⟨hnext, _⟩
    · cases hnext
    · simp only [Tmi.retryCommit, bind_eq_ok, pure_eq_ok, Except.ok.injEq] at hretry
      obtain ⟨w', hrecover, rfl⟩ := hretry
      have hbook : w'.sei.book = (t0.seiBegin rbp).sei.book :=
        (hwithin.tryCommit htry).book_recover hbetween hrecover
      rw [Bookkeeping.ext_iff]
      constructor
      · rintro ⟨_, _, _, _, hwrite⟩
        exact hwrite.symm
      · intro hwrite
        exact ⟨hbook, habuf.symm, habufSc.symm, hnum.symm, hwrite.symm⟩
    · cases hnext
  · intro t' hsegv
    simp only [Tmi.protectHandler, bind_eq_ok, pure_eq_ok, Except.ok.injEq] at hsegv
    obtain ⟨_, _, w, hrecover, rfl⟩ := hsegv
    have hbook : w.sei.book = (t0.seiBegin rbp).sei.book := hwithin.book_recover hbetween hrecover
    rw [Bookkeeping.ext_iff, empty_iff_counters, empty_iff_counters]
    constructor
    · rintro ⟨_, hlog, hlogSc, hignore, hwrite⟩
      exact ⟨hlog.trans habuf, hlogSc.trans habufSc, hignore.trans hnum, hwrite⟩
    · rintro ⟨hlog, hlogSc, hignore, hwrite⟩
      exact ⟨hbook, hlog.trans habuf.symm, hlogSc.trans habufSc.symm, hignore.trans hnum.symm, hwrite⟩

/-- A block is allocated and written to before the `SIGSEGV`: the new attempt starts with the
bookkeeping of the first. -/
theorem bookkeeping_recovered_afterMalloc :
    ∃ t t', InTransaction Env.plain (Build.twoWay true true) 0
        (Tmi.init (Build.twoWay true true) fun _ => 0) t ∧
      t.sei.talloc.size 0 = 1 ∧ (t.sei.cow 0).pushed = 1 ∧
      t.protectHandler Env.plain (Build.twoWay true true) = .ok t' ∧
      t'.bookkeeping =
        ((Tmi.init (Build.twoWay true true) fun _ => 0).seiBegin 0).bookkeeping := by
  obtain ⟨t, t', hin, hsize, hpushed, hsegv, hlock, hsc, hignore⟩ : ∃ t t',
      InTransaction Env.plain (Build.twoWay true true) 0
        (Tmi.init (Build.twoWay true true) fun _ => 0) t ∧
      t.sei.talloc.size 0 = 1 ∧ (t.sei.cow 0).pushed = 1 ∧
      t.protectHandler Env.plain (Build.twoWay true true) = .ok t' ∧
      t.locks.abuf.Empty ∧ t.abufSc.Empty ∧ t.ignore.num = 0 ∧ t.ignore.writeDisable = 0 :=
    ⟨_, _, .op (.op .begin (o := .malloc 8) rfl) (o := .write 0 .uint8 4096 7) rfl,
      rfl, rfl, rfl, ⟨rfl, rfl⟩, ⟨rfl, rfl⟩, rfl, rfl⟩
  refine ⟨t, t', hin, hsize, hpushed, hsegv, ?_⟩
  exact ((bookkeeping_recovered_iff (between_init (Build.twoWay true true) fun _ => 0) hin).2 t'
    hsegv).mpr ⟨hlock, hsc, hignore⟩

/-- A mutex is taken in phase 0 before the `SIGSEGV`: the new attempt finds its result in the
buffer. -/
theorem bookkeeping_recovered_afterLock :
    ∃ t t', InTransaction Env.plain (Build.twoWay true true) 0
        (Tmi.init (Build.twoWay true true) fun _ => 0) t ∧
      t.protectHandler Env.plain (Build.twoWay true true) = .ok t' ∧
      t'.bookkeeping ≠
        ((Tmi.init (Build.twoWay true true) fun _ => 0).seiBegin 0).bookkeeping := by
  refine ⟨_, _, .op .begin (o := .lock (.lock 8) 0) rfl, rfl, fun hsame => ?_⟩
  have habuf := congrArg Bookkeeping.abuf hsame
  exact absurd habuf (by decide)

end Recovery

end Tmi

end LibSei
