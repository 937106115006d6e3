-- SUMMARY: Taking a phase apart: wrapped calls do not notice the other operations, and the other operations do not notice them.
import LibSei.Tmi.Phases

/-!
# Separating the wrapped calls

System calls and lock operations each work on a part of the state that nothing else
uses. So when a transaction runs through without its system calls, it runs through with
them, and what they return and leave behind depends on these calls alone. The same holds
for lock operations, and the argument is the same.
-/

namespace LibSei

open Memory Control

/-! ## The other operations and the waitress -/

namespace World

/-- Another waitress in the same state. -/
def setWts (w : World) (wts : Wts) : World := { w with sei := { w.sei with wts := wts } }

section SetWts

variable {env : Env} {b : Build} {w w' : World} {wts : Wts}

theorem write_setWts {t : UIntTy} {addr value : Nat} (h : w.write b t addr value = .ok w') :
    (w.setWts wts).write b t addr value = .ok (w'.setWts wts) := by
  simp only [World.write, bind_eq_ok, pure_eq_ok, Except.ok.injEq] at h
  obtain ⟨_, hassert, _, hbounds, rfl⟩ := h
  exact bind_eq_ok.mpr ⟨_, hassert, bind_eq_ok.mpr ⟨_, hbounds, rfl⟩⟩

theorem malloc_setWts {size addr : Nat} (h : w.malloc env b size = .ok (addr, w')) :
    (w.setWts wts).malloc env b size = .ok (addr, w'.setWts wts) := by
  simp only [World.malloc, bind_eq_ok, pure_eq_ok, Except.ok.injEq, Prod.mk.injEq] at h
  obtain ⟨x, hmalloc, rfl, rfl⟩ := h
  exact bind_eq_ok.mpr ⟨x, hmalloc, rfl⟩

theorem free_setWts {ptr : Nat} (h : w.free b ptr = .ok w') :
    (w.setWts wts).free b ptr = .ok (w'.setWts wts) := by
  simp only [World.free, bind_eq_ok, pure_eq_ok, Except.ok.injEq] at h
  obtain ⟨tbin, hadd, rfl⟩ := h
  exact bind_eq_ok.mpr ⟨tbin, hadd, rfl⟩

theorem outputAppend_setWts {ptr size : Nat} (h : w.outputAppend env b ptr size = .ok w') :
    (w.setWts wts).outputAppend env b ptr size = .ok (w'.setWts wts) := by
  unfold World.outputAppend at h ⊢
  split at h
  · next hp =>
    cases h
    exact if_pos hp
  · next hp =>
    rw [bind_eq_ok] at h
    obtain ⟨obuf, hpush, hw⟩ := h
    cases hw
    exact (if_neg hp).trans (bind_eq_ok.mpr ⟨obuf, hpush, rfl⟩)

theorem outputDone_setWts (h : w.outputDone b = .ok w') :
    (w.setWts wts).outputDone b = .ok (w'.setWts wts) := by
  unfold World.outputDone at h ⊢
  split at h
  · next hp =>
    cases h
    exact if_pos hp
  · next hp =>
    rw [bind_eq_ok] at h
    obtain ⟨obuf, hdone, hw⟩ := h
    cases hw
    exact (if_neg hp).trans (bind_eq_ok.mpr ⟨obuf, hdone, rfl⟩)

theorem switch_setWts (h : w.switch env b = .ok w') :
    (w.setWts wts).switch env b = .ok (w'.setWts wts) := by
  simp only [World.switch, bind_eq_ok, pure_eq_ok, Except.ok.injEq] at h
  obtain ⟨_, hassert, talloc, htalloc, _, hbounds, x, hswap, rfl⟩ := h
  exact bind_eq_ok.mpr ⟨_, hassert, bind_eq_ok.mpr ⟨talloc, htalloc,
    bind_eq_ok.mpr ⟨_, hbounds, bind_eq_ok.mpr ⟨x, hswap, rfl⟩⟩⟩⟩

end SetWts

end World

/-! ## Parts -/

/-- A part `σ` of the state on which the calls `κ` of one kind work and nothing else does.
`next` is what the start of the next phase makes of it. -/
structure Part (env : Env) (b : Build) (κ σ : Type) where
  pick : Op → Option κ
  set : Tmi → σ → Tmi
  run : Int → κ → σ → Exec (Int32 × σ)
  next : σ → σ
  op_other : ∀ {o : Op} {t t' : Tmi} {r : Option Int32} {s : σ}, pick o = none →
    t.op env b o = .ok (r, t') → (set t s).op env b o = .ok (r, set t' s)
  op_own : ∀ {o : Op} {x : κ} {t : Tmi} {s s' : σ} {q : Int32}, pick o = some x →
    run t.sei.p x s = .ok (q, s') → (set t s).op env b o = .ok (some q, set t s')
  seiBegin_set : ∀ (t : Tmi) (s : σ) (rbp : Nat), (set t s).seiBegin rbp = set (t.seiBegin rbp) s
  seiCommit_set : ∀ {t t' : Tmi} {go : Next} {s : σ}, t.sei.p < t.sei.redundancyLevel - 1 →
    t.seiCommit env b = .ok (go, t') → (set t s).seiCommit env b = .ok (go, set t' (next s))

namespace Part

variable {env : Env} {b : Build} {κ σ : Type} (P : Part env b κ σ)

/-- The calls of this kind in a phase. -/
def of (os : List Op) : List κ := os.filterMap P.pick

/-- The phase without them. -/
def without (os : List Op) : List Op := os.filter fun o => (P.pick o).isNone

/-- What they returned, given what all operations of the phase returned. -/
def replies (os : List Op) (rs : List (Option Int32)) : List Int32 :=
  (os.zip rs).filterMap fun x => if (P.pick x.1).isSome then x.2 else none

variable {P} {t t' : Tmi} {os : List Op} {rs : List (Option Int32)} {qs : List Int32} {s s' : σ}

/-- A phase that runs through without the calls runs through with them. -/
theorem ops_set (h : Tmi.ops env b (P.without os) t = .ok (rs, t'))
    (hown : runEach (P.run t.sei.p) (P.of os) s = .ok (qs, s')) :
    ∃ rs', Tmi.ops env b os (P.set t s) = .ok (rs', P.set t' s') ∧ P.replies os rs' = qs := by
  induction os generalizing t s rs qs with
  | nil =>
    cases h
    cases hown
    exact ⟨[], rfl, rfl⟩
  | cons o os ih =>
    cases ho : P.pick o with
    | some x =>
      have hwithout : P.without (o :: os) = P.without os := by simp [without, ho]
      have hof : P.of (o :: os) = x :: P.of os := by simp [of, ho]
      rw [hwithout] at h
      rw [hof] at hown
      obtain ⟨q, s1, qs1, hcall, hrest, rfl⟩ := runEach_cons_eq_ok.mp hown
      obtain ⟨rs', hrun, hreplies⟩ := ih h hrest
      refine ⟨some q :: rs', runEach_cons_of (P.op_own ho hcall) hrun, ?_⟩
      simpa [replies, ho] using hreplies
    | none =>
      have hwithout : P.without (o :: os) = o :: P.without os := by simp [without, ho]
      have hof : P.of (o :: os) = P.of os := by simp [of, ho]
      rw [hwithout] at h
      rw [hof] at hown
      obtain ⟨r, t1, rs1, hop, hrest, rfl⟩ := runEach_cons_eq_ok.mp h
      have hp : t1.sei.p = t.sei.p := (Tmi.op_keeps hop).frame.p
      rw [← hp] at hown
      obtain ⟨rs', hrun, hreplies⟩ := ih hrest hown
      refine ⟨r :: rs', runEach_cons_of (P.op_other ho hop) hrun, ?_⟩
      simpa [replies, ho] using hreplies

end Part

namespace Tmi

variable {env : Env} {b : Build} {rbp k n : Nat} {t t' : Tmi} {os : Nat → List Op}
  {rss : List (List (Option Int32))}

/-- A phase before the last is followed by the next one. -/
theorem seiCommit_of_lt {go : Next} (h : t.seiCommit env b = .ok (go, t'))
    (hp : t.sei.p < t.sei.redundancyLevel - 1) :
    go = .reexecute ∧ t'.sei.p = t.sei.p + 1 ∧
      t'.sei.redundancyLevel = t.sei.redundancyLevel := by
  rcases seiCommit_cases h with ⟨hgo, _, hswitch⟩ | ⟨_, hge, _⟩ | ⟨_, hge, _⟩
  · simp only [switchPhase, World.switch, bind_eq_ok, pure_eq_ok, Except.ok.injEq] at hswitch
    obtain ⟨_, ⟨_, _, _, _, _, _, _, _, rfl⟩, rfl⟩ := hswitch
    exact ⟨hgo, rfl, rfl⟩
  · omega
  · omega

theorem phases_p (hp : t.sei.p = -1) (hlevel : t.sei.redundancyLevel = n) (hk : k < n)
    (h : phases env b rbp os t k = .ok (rss, t')) :
    t'.sei.p = k ∧ t'.sei.redundancyLevel = n ∧ rss.length = k + 1 := by
  induction k generalizing rss t' with
  | zero =>
    simp only [phases, bind_eq_ok, pure_eq_ok, Except.ok.injEq, Prod.mk.injEq] at h
    obtain ⟨⟨rs, t1⟩, hops, rfl, rfl⟩ := h
    have hframe := (ops_keeps hops).frame
    have hbegin := World.beginPhase_of_idle (w := t.world) hp
    refine ⟨hframe.p.trans ?_, hframe.level.trans ?_, rfl⟩
    · rw [seiBegin, hbegin]
      rfl
    · rw [seiBegin, hbegin]
      exact hlevel
  | succ k ih =>
    simp only [phases, bind_eq_ok, pure_eq_ok, Except.ok.injEq, Prod.mk.injEq] at h
    obtain ⟨⟨rss1, t1⟩, hphases, ⟨go, t2⟩, hcommit, ⟨rs, t3⟩, hops, rfl, rfl⟩ := h
    obtain ⟨hp1, hlevel1, hlength⟩ := ih (by omega) hphases
    simp only at hcommit hops
    obtain ⟨_, hp2, hlevel2⟩ := seiCommit_of_lt hcommit (by omega)
    have hframe := (ops_keeps hops).frame
    refine ⟨hframe.p.trans ?_, hframe.level.trans (hlevel2.trans hlevel1), by simp [hlength]⟩
    show t2.sei.p = _
    rw [hp2, hp1]
    rfl

/-- The phases of a transaction that was run up to phase `k` were run up to every earlier
one. -/
theorem exists_phases_of_le {j : Nat} (hj : j ≤ k) (h : phases env b rbp os t k = .ok (rss, t')) :
    ∃ rss1 t1, phases env b rbp os t j = .ok (rss1, t1) := by
  induction hj generalizing rss t' with
  | refl => exact ⟨rss, t', h⟩
  | step _ ih =>
    rw [phases, bind_eq_ok] at h
    obtain ⟨⟨rss1, t1⟩, hphases, _⟩ := h
    exact ih hphases

end Tmi

/-- A transaction whose phases run through without the calls of a kind runs through with
them, if the calls of a phase that starts with the part in `I` run through and leave it in
`J`, and the next phase starts in `I` again. -/
theorem Part.phases_set {env : Env} {b : Build} {κ σ : Type} {P : Part env b κ σ} {rbp k n : Nat}
    {t t' : Tmi} {os : Nat → List Op} {rss : List (List (Option Int32))} {I J : Nat → σ → Prop}
    {Q : Nat → List Int32} {s : σ} (hp : t.sei.p = -1) (hlevel : t.sei.redundancyLevel = n)
    (hk : k < n) (hstart : I 0 s)
    (hown : ∀ j ≤ k, ∀ s, I j s → ∃ s', runEach (P.run j) (P.of (os j)) s = .ok (Q j, s') ∧ J j s')
    (hnext : ∀ j < k, ∀ s, J j s → I (j + 1) (P.next s))
    (h : Tmi.phases env b rbp (fun j => P.without (os j)) t k = .ok (rss, t')) :
    ∃ rss' s', Tmi.phases env b rbp os (P.set t s) k = .ok (rss', P.set t' s') ∧ J k s' ∧
      rss'.length = k + 1 ∧ ∀ j ≤ k, ∃ rs, rss'[j]? = some rs ∧ P.replies (os j) rs = Q j := by
  induction k generalizing rss t' with
  | zero =>
    simp only [Tmi.phases, bind_eq_ok, pure_eq_ok, Except.ok.injEq, Prod.mk.injEq] at h
    obtain ⟨⟨rs, t1⟩, hops, rfl, rfl⟩ := h
    have hbegin : (t.seiBegin rbp).sei.p = ((0 : Nat) : Int) := by
      unfold Tmi.seiBegin World.beginPhase
      simp [hp, Tmi.setWorld]
    obtain ⟨s', hown0, hJ⟩ := hown 0 (le_refl 0) s hstart
    rw [← hbegin] at hown0
    obtain ⟨rs', hrun, hreplies⟩ := P.ops_set hops hown0
    refine ⟨[rs'], s', ?_, hJ, rfl, fun j hj => ?_⟩
    · rw [Tmi.phases, P.seiBegin_set, hrun, ok_bind]
      rfl
    · obtain rfl : j = 0 := by omega
      exact ⟨rs', rfl, hreplies⟩
  | succ k ih =>
    simp only [Tmi.phases, bind_eq_ok, pure_eq_ok, Except.ok.injEq, Prod.mk.injEq] at h
    obtain ⟨⟨rss1, t1⟩, hphases, ⟨go, t2⟩, hcommit, ⟨rs, t3⟩, hops, rfl, rfl⟩ := h
    obtain ⟨hp1, hlevel1, _⟩ := Tmi.phases_p hp hlevel (by omega) hphases
    simp only at hcommit hops
    have hlt : t1.sei.p < t1.sei.redundancyLevel - 1 := by omega
    obtain ⟨_, hp2, _⟩ := Tmi.seiCommit_of_lt hcommit hlt
    obtain ⟨rss', s1, hrun, hJ, hlength, hreplies⟩ := ih (by omega) (fun j hj => hown j (by omega))
      (fun j hj => hnext j (by omega)) hphases
    obtain ⟨s', hown', hJ'⟩ := hown (k + 1) (le_refl _) (P.next s1) (hnext k (by omega) s1 hJ)
    have hp2' : t2.sei.p = ((k + 1 : Nat) : Int) := by
      rw [hp2, hp1]
      rfl
    rw [← hp2'] at hown'
    obtain ⟨rs', hrun', hreplies'⟩ := P.ops_set hops hown'
    refine ⟨rss' ++ [rs'], s', ?_, hJ', by simp [hlength], fun j hj => ?_⟩
    · exact bind_eq_ok.mpr ⟨_, hrun, bind_eq_ok.mpr ⟨_, P.seiCommit_set hlt hcommit,
        bind_eq_ok.mpr ⟨_, hrun', rfl⟩⟩⟩
    · rcases Nat.lt_or_ge j (k + 1) with hlt | hge
      · rw [List.getElem?_append_left (by omega)]
        exact hreplies j (by omega)
      · obtain rfl : j = k + 1 := by omega
        rw [List.getElem?_append_right (by omega), hlength, Nat.sub_self]
        exact ⟨rs', rfl, hreplies'⟩

/-! ## Changes that nothing else notices -/

/-- A change `f` of the state, `g` on the library state, that operations other than wrapped
calls neither notice nor undo. -/
structure Tmi.Unnoticed (env : Env) (b : Build) (f : Tmi → Tmi) (g : World → World) : Prop where
  world : ∀ t, (f t).world = g t.world
  high : ∀ t, (f t).high = t.high
  p : ∀ t, (f t).sei.p = t.sei.p
  setWorld : ∀ t w, (f t).setWorld (g w) = f (t.setWorld w)
  setProcess : ∀ t x m, Tmi.mk (f t).toSeiThread x m = f ⟨t.toSeiThread, x, m⟩
  write : ∀ {w w' ty addr value}, World.write b w ty addr value = .ok w' →
    (g w).write b ty addr value = .ok (g w')
  malloc : ∀ {w w' size addr}, World.malloc env b w size = .ok (addr, w') →
    (g w).malloc env b size = .ok (addr, g w')
  free : ∀ {w w' ptr}, World.free b w ptr = .ok w' → (g w).free b ptr = .ok (g w')
  outputAppend : ∀ {w w' ptr size}, World.outputAppend env b w ptr size = .ok w' →
    (g w).outputAppend env b ptr size = .ok (g w')
  outputDone : ∀ {w w'}, World.outputDone b w = .ok w' → (g w).outputDone b = .ok (g w')

namespace Tmi.Unnoticed

variable {env : Env} {b : Build} {f : Tmi → Tmi} {g : World → World} {t t' : Tmi} {o : Op}
  {r : Option Int32}

theorem ignore (hu : Unnoticed env b f g) : (f t).ignore = t.ignore :=
  (congrArg Tmi.ignore (hu.setProcess t t.ignore t.machine)).symm

theorem machine (hu : Unnoticed env b f g) : (f t).machine = t.machine :=
  (congrArg Tmi.machine (hu.setProcess t t.ignore t.machine)).symm

theorem seiIgnoreAddr (hu : Unnoticed env b f g) {start stop : Nat}
    (h : t.seiIgnoreAddr b start stop = .ok t') :
    (f t).seiIgnoreAddr b start stop = .ok (f t') := by
  unfold Tmi.seiIgnoreAddr at h ⊢
  rw [hu.p, hu.ignore]
  split at h
  · next hp =>
    cases h
    exact if_pos hp
  next hp =>
  split at h
  · next hlisted =>
    cases h
    exact (if_neg hp).trans (if_pos hlisted)
  · next hlisted =>
    rw [bind_eq_ok] at h
    obtain ⟨x, happend, ht⟩ := h
    cases ht
    rw [if_neg hp, if_neg hlisted, happend, ok_bind, hu.machine, hu.setProcess]
    rfl

theorem itmWrite (hu : Unnoticed env b f g) {sp addr value : Nat} {ty : UIntTy}
    (h : t.itmWrite b sp ty addr value = .ok t') : (f t).itmWrite b sp ty addr value = .ok (f t') := by
  have hignore : (f t).ignoreAddr sp addr = t.ignoreAddr sp addr := by
    rw [Tmi.ignoreAddr, hu.ignore, hu.high, Tmi.ignoreAddr]
  unfold Tmi.itmWrite at h ⊢
  rw [hignore, hu.ignore, hu.machine, hu.setProcess, hu.world]
  split at h
  · next hign =>
    cases h
    exact if_pos hign
  · next hign =>
    rw [bind_eq_ok] at h
    obtain ⟨w, hwrite, ht⟩ := h
    cases ht
    rw [if_neg hign, hu.write hwrite, ok_bind, hu.setWorld]
    rfl

theorem itmMalloc (hu : Unnoticed env b f g) {size addr : Nat}
    (h : t.itmMalloc env b size = .ok (addr, t')) :
    (f t).itmMalloc env b size = .ok (addr, f t') := by
  unfold Tmi.itmMalloc at h ⊢
  rw [hu.ignore, hu.machine, hu.world]
  split at h
  · next hall =>
    rw [bind_eq_ok] at h
    obtain ⟨t1, hadd, ht⟩ := h
    cases ht
    have hadd := hu.seiIgnoreAddr hadd
    rw [← hu.setProcess] at hadd
    exact (if_pos hall).trans (bind_eq_ok.mpr ⟨_, hadd, rfl⟩)
  · next hall =>
    rw [bind_eq_ok] at h
    obtain ⟨⟨addr', w⟩, hmalloc, ht⟩ := h
    cases ht
    rw [← hu.setWorld]
    exact (if_neg hall).trans (bind_eq_ok.mpr ⟨_, hu.malloc hmalloc, rfl⟩)

theorem itmFree (hu : Unnoticed env b f g) {ptr : Nat} (h : t.itmFree env b ptr = .ok t') :
    (f t).itmFree env b ptr = .ok (f t') := by
  unfold Tmi.itmFree at h ⊢
  rw [hu.ignore, hu.machine, hu.setProcess, hu.world]
  split at h
  · next hstart =>
    cases h
    exact if_pos hstart
  · next hstart =>
    rw [bind_eq_ok] at h
    obtain ⟨w, hfree, ht⟩ := h
    cases ht
    rw [if_neg hstart, hu.free hfree, ok_bind, hu.setWorld]
    rfl

/-- An operation that is no wrapped call. -/
theorem op (hu : Unnoticed env b f g) (hsys : ∀ c real, o ≠ .sys c real)
    (hlock : ∀ c real, o ≠ .lock c real) (h : t.op env b o = .ok (r, t')) :
    (f t).op env b o = .ok (r, f t') := by
  cases o with
  | write sp ty addr value =>
    simp only [Tmi.op, bind_eq_ok] at h
    obtain ⟨t1, hwrite, ht⟩ := h
    cases ht
    exact bind_eq_ok.mpr ⟨_, hu.itmWrite hwrite, rfl⟩
  | malloc size =>
    simp only [Tmi.op, bind_eq_ok] at h
    obtain ⟨⟨addr, t1⟩, hmalloc, ht⟩ := h
    cases ht
    exact bind_eq_ok.mpr ⟨_, hu.itmMalloc hmalloc, rfl⟩
  | free ptr =>
    simp only [Tmi.op, bind_eq_ok] at h
    obtain ⟨t1, hfree, ht⟩ := h
    cases ht
    exact bind_eq_ok.mpr ⟨_, hu.itmFree hfree, rfl⟩
  | outputAppend ptr size =>
    simp only [Tmi.op, bind_eq_ok] at h
    obtain ⟨w, happend, ht⟩ := h
    cases ht
    rw [Tmi.op, hu.world, hu.outputAppend happend, ok_bind, hu.setWorld]
    rfl
  | outputDone =>
    simp only [Tmi.op, bind_eq_ok] at h
    obtain ⟨w, hdone, ht⟩ := h
    cases ht
    rw [Tmi.op, hu.world, hu.outputDone hdone, ok_bind, hu.setWorld]
    rfl
  | ignore v =>
    cases h
    rw [Tmi.op, hu.ignore, hu.machine, hu.setProcess]
    rfl
  | ignoreAll v =>
    cases h
    rw [Tmi.op, hu.ignore, hu.machine, hu.setProcess]
    rfl
  | ignoreAddr start stop =>
    simp only [Tmi.op, bind_eq_ok] at h
    obtain ⟨t1, hadd, ht⟩ := h
    cases ht
    exact bind_eq_ok.mpr ⟨_, hu.seiIgnoreAddr hadd, rfl⟩
  | sys c real => exact absurd rfl (hsys c real)
  | lock c real => exact absurd rfl (hlock c real)

end Tmi.Unnoticed

/-! ## System calls -/

namespace Tmi

section Sys

variable {env : Env} {b : Build} {t t' : Tmi} {o : Op} {r : Option Int32} {s : SysState}

theorem unnoticed_setSys (s : SysState) :
    Unnoticed env b (fun t => t.setSys s) (fun w => w.setWts s.wts) where
  world _ := rfl
  high _ := rfl
  p _ := rfl
  setWorld _ _ := rfl
  setProcess _ _ _ := rfl
  write := World.write_setWts
  malloc := World.malloc_setWts
  free := World.free_setWts
  outputAppend := World.outputAppend_setWts
  outputDone := World.outputDone_setWts

/-- No other operation notices the system calls. -/
theorem op_setSys (hnone : ∀ c real, o ≠ .sys c real) (h : t.op env b o = .ok (r, t')) :
    (t.setSys s).op env b o = .ok (r, t'.setSys s) := by
  cases o with
  | lock c real =>
    simp only [op, bind_eq_ok] at h
    obtain ⟨x, hrun, ht⟩ := h
    cases ht
    exact bind_eq_ok.mpr ⟨x, hrun, rfl⟩
  | _ => exact (unnoticed_setSys s).op hnone (fun _ _ ho => Op.noConfusion ho) h

/-- Nor does the start of the next phase. -/
theorem seiCommit_setSys {go : Next} (hp : t.sei.p < t.sei.redundancyLevel - 1)
    (h : t.seiCommit env b = .ok (go, t')) :
    (t.setSys s).seiCommit env b = .ok (go, t'.setSys s) := by
  rcases seiCommit_cases h with ⟨rfl, _, hswitch⟩ | ⟨_, hge, _⟩ | ⟨_, hge, _⟩
  · simp only [switchPhase, bind_eq_ok, pure_eq_ok, Except.ok.injEq] at hswitch
    obtain ⟨w, hswitch, rfl⟩ := hswitch
    exact (if_pos hp).trans
      (bind_eq_ok.mpr ⟨_, bind_eq_ok.mpr ⟨_, World.switch_setWts hswitch, rfl⟩, rfl⟩)
  · omega
  · omega

theorem seiBegin_setSys (t : Tmi) (s : SysState) (rbp : Nat) :
    (t.setSys s).seiBegin rbp = (t.seiBegin rbp).setSys s := by
  unfold seiBegin World.beginPhase
  by_cases hp : t.sei.p = -1
  · have hp' : (t.setSys s).world.sei.p = -1 := hp
    rw [if_pos hp, if_pos hp']
    rfl
  · have hp' : ¬ (t.setSys s).world.sei.p = -1 := hp
    rw [if_neg hp, if_neg hp']
    rfl

end Sys

end Tmi

/-- The part of the state that system calls work on. -/
def sysPart (env : Env) (b : Build) : Part env b (SysCall × Int32) SysState where
  pick
    | .sys c real => some (c, real)
    | _ => none
  set := Tmi.setSys
  run p x := x.1.run b p x.2
  next := id
  op_other ho h := Tmi.op_setSys (fun c real hop => by subst hop; cases ho) h
  op_own {o x _ _ _ _} ho h := by
    cases o with
    | sys c real =>
      cases ho
      exact bind_eq_ok.mpr ⟨_, h, rfl⟩
    | _ => cases ho
  seiBegin_set := Tmi.seiBegin_setSys
  seiCommit_set := Tmi.seiCommit_setSys

/-! ## Lock operations -/

namespace Tmi

section Locks

variable {env : Env} {b : Build} {t t' : Tmi} {o : Op} {r : Option Int32} {l : LockState}

theorem unnoticed_setLocks (l : LockState) : Unnoticed env b (fun t => t.setLocks l) id where
  world _ := rfl
  high _ := rfl
  p _ := rfl
  setWorld _ _ := rfl
  setProcess _ _ _ := rfl
  write h := h
  malloc h := h
  free h := h
  outputAppend h := h
  outputDone h := h

/-- No other operation notices the lock operations. -/
theorem op_setLocks (hnone : ∀ c real, o ≠ .lock c real) (h : t.op env b o = .ok (r, t')) :
    (t.setLocks l).op env b o = .ok (r, t'.setLocks l) := by
  cases o with
  | sys c real =>
    simp only [op, bind_eq_ok] at h
    obtain ⟨x, hrun, ht⟩ := h
    cases ht
    exact bind_eq_ok.mpr ⟨x, hrun, rfl⟩
  | _ => exact (unnoticed_setLocks l).op (fun _ _ ho => Op.noConfusion ho) hnone h

/-- The start of the next phase rewinds the buffer of lock results. -/
theorem seiCommit_setLocks {go : Next} (hp : t.sei.p < t.sei.redundancyLevel - 1)
    (h : t.seiCommit env b = .ok (go, t')) :
    (t.setLocks l).seiCommit env b =
      .ok (go, t'.setLocks { l with abuf := l.abuf.rewind }) := by
  rcases seiCommit_cases h with ⟨rfl, _, hswitch⟩ | ⟨_, hge, _⟩ | ⟨_, hge, _⟩
  · simp only [switchPhase, bind_eq_ok, pure_eq_ok, Except.ok.injEq] at hswitch
    obtain ⟨w, hswitch, rfl⟩ := hswitch
    exact (if_pos hp).trans (bind_eq_ok.mpr ⟨_, bind_eq_ok.mpr ⟨w, hswitch, rfl⟩, rfl⟩)
  · omega
  · omega

theorem leave_setLocks {l' : LockState} (h : t.leave b = .ok t') (hrelease : l.release b = .ok l') :
    (t.setLocks l).leave b = .ok (t'.setLocks l') := by
  simp only [leave, bind_eq_ok] at h
  obtain ⟨_, hassert, _, _, ht⟩ := h
  cases ht
  exact bind_eq_ok.mpr ⟨_, hassert, bind_eq_ok.mpr ⟨_, hrelease, rfl⟩⟩

/-- A commit notices the lock operations only when it releases the locks. -/
theorem seiCommit_committed_setLocks {l' : LockState}
    (h : t.seiCommit env b = .ok (.committed, t')) (hrelease : l.release b = .ok l') :
    (t.setLocks l).seiCommit env b = .ok (.committed, t'.setLocks l') := by
  simp only [seiCommit] at h
  by_cases hp : t.sei.p < t.sei.redundancyLevel - 1
  · rw [if_pos hp, bind_eq_ok] at h
    obtain ⟨_, _, hnext⟩ := h
    cases hnext
  rw [if_neg hp, bind_eq_ok] at h
  obtain ⟨_, hassert, h⟩ := h
  by_cases hb : b.cpuIsolation = true
  · rw [if_pos hb, bind_eq_ok] at h
    obtain ⟨⟨ok, w⟩, htry, h⟩ := h
    cases ok with
    | true =>
      simp only [if_true, bind_eq_ok] at h
      obtain ⟨w1, hcommit, t1, hleave, ht⟩ := h
      cases ht
      exact (if_neg hp).trans (bind_eq_ok.mpr ⟨_, hassert, (if_pos hb).trans (bind_eq_ok.mpr
        ⟨_, htry, (if_pos rfl).trans (bind_eq_ok.mpr ⟨_, hcommit,
          bind_eq_ok.mpr ⟨_, leave_setLocks hleave hrelease, rfl⟩⟩)⟩)⟩)
    | false =>
      simp only [Bool.false_eq_true, if_false, bind_eq_ok] at h
      obtain ⟨_, _, hnext⟩ := h
      cases hnext
  · simp only [if_neg hb, bind_eq_ok] at h
    obtain ⟨w, hcommit, t1, hleave, ht⟩ := h
    cases ht
    exact (if_neg hp).trans (bind_eq_ok.mpr ⟨_, hassert, (if_neg hb).trans (bind_eq_ok.mpr
      ⟨_, hcommit, bind_eq_ok.mpr ⟨_, leave_setLocks hleave hrelease, rfl⟩⟩)⟩)

end Locks

end Tmi

/-- The part of the state that lock operations work on. -/
def lockPart (env : Env) (b : Build) : Part env b (LockOp × Int32) LockState where
  pick
    | .lock o real => some (o, real)
    | _ => none
  set := Tmi.setLocks
  run p x := x.1.run b p x.2
  next l := { l with abuf := l.abuf.rewind }
  op_other ho h := Tmi.op_setLocks (fun c real hop => by subst hop; cases ho) h
  op_own {o x _ _ _ _} ho h := by
    cases o with
    | lock o real =>
      cases ho
      exact bind_eq_ok.mpr ⟨_, h, rfl⟩
    | _ => cases ho
  seiBegin_set _ _ _ := rfl
  seiCommit_set := Tmi.seiCommit_setLocks

end LibSei
