import Nsdci.Nfs.History

/-!
# Coherence of the file server's cache

A value in the cache is taken for the content of a file when size and time of the file are those
the value was read with, and a write flushes the value of its own key only. `reads_coherent` says
under which conditions no read delivers old content all the same; `alias_stale` and `stray_store`
are runs in which these conditions fail.

The invariant has a part for the writers and the disk, one for the versions, one for the entries
that are being filled, one for what may be delivered later (`View`), and one for where the contents
come from.
-/

namespace Nsdci.Nfs

open Lib

variable {su : Setup}

/-! ## Writers -/

/-- The inode of a file that has no name yet. -/
def Thread.temp (su : Setup) (t : Thread) : Option Nat :=
  match t.pc with
  | .writev i w => if su.cfg.mode w.append = .rename then some i else none
  | .rename i _ => some i
  | _ => none

/-- An inode a thread writes has at most the name of the thread's file, and a new file has no name
and one writer. -/
structure Writers (su : Setup) (d : Disk) (threads : List Thread) : Prop where
  sound : d.Sound
  held : ∀ (n : Nat) (t : Thread) (i : Nat), threads[n]? = some t → t.held = some i →
    i < d.next ∧ ∀ q, d.names q = some (.file i) → q = su.path t
  temp : ∀ (n : Nat) (t : Thread) (i : Nat), threads[n]? = some t → t.temp su = some i →
    d.Unnamed i ∧ ∀ (m : Nat) (u : Thread), threads[m]? = some u → u.held = some i → m = n

/-- What a thread changes on the disk: the inode `i` and the name `p`. The inode is new, or the one
the thread has, or the one that has the name `p`. -/
structure Touch (su : Setup) (d d' : Disk) (t t' : Thread) (i : Nat) : Prop where
  next : d.next ≤ d'.next
  used : d'.names (su.path t) = some (.file i) → i < d'.next
  inodes : ∀ j, j ≠ i → d'.inodes j = d.inodes j
  names : ∀ q, q ≠ su.path t → d'.names q = d.names q
  name : d'.names (su.path t) = d.names (su.path t) ∨ d'.names (su.path t) = none ∨
    d'.names (su.path t) = some (.file i) ∧ (i = d.next ∨ t.temp su = some i)
  inode : i = d.next ∨ t.held = some i ∨ d.names (su.path t) = some (.file i)
  held : ∀ j, t'.held = some j → j = i ∧ i < d'.next
  temp : ∀ j, t'.temp su = some j → d'.names (su.path t) = d.names (su.path t) ∧
    (i = d.next ∨ t.temp su = some i)

/-- A new file is one the thread writes. -/
theorem Thread.held_of_temp {t : Thread} {i : Nat} (h : t.temp su = some i) : t.held = some i := by
  cases hpc : t.pc with
  | writev j w =>
      rw [Thread.temp, hpc] at h
      rw [Thread.held, hpc]
      dsimp only at h
      split_ifs at h
      exact h
  | rename j w =>
      rw [Thread.temp, hpc] at h
      rw [Thread.held, hpc]
      exact h
  | _ =>
      rw [Thread.temp, hpc] at h
      exact absurd h (by simp)

section Threads

variable {threads : List Thread} {n : Nat} {t t' : Thread} {d d' : Disk} {i : Nat}

/-- No file but that of the thread has the inode it changes. -/
theorem Writers.other (h : Writers su d threads) (hn : threads[n]? = some t)
    (ht : Touch su d d' t t' i) : ∀ q, q ≠ su.path t → d.names q ≠ some (.file i) := by
  intro q hq hname
  rcases ht.inode with rfl | hheld | hpath
  · exact h.sound.unnamed_next q hname
  · exact hq ((h.held n t i hn hheld).2 q hname)
  · exact hq (h.sound.one q _ i hname hpath)

/-- A name leads where it led before, or is that of the thread's file and leads to its inode. -/
theorem Touch.names_cases (ht : Touch su d d' t t' i) {q : Bytes} {j : Nat}
    (hname : d'.names q = some (.file j)) : d.names q = some (.file j) ∨
      q = su.path t ∧ j = i ∧ (i = d.next ∨ t.temp su = some i) := by
  by_cases hq : q = su.path t
  · subst hq
    rcases ht.name with hsame | hnone | ⟨hnew, hfrom⟩
    · exact Or.inl (hsame ▸ hname)
    · exact absurd (hnone.symm.trans hname) (by simp)
    · rw [hnew] at hname
      simp only [Option.some.injEq, Node.file.injEq] at hname
      exact Or.inr ⟨rfl, hname.symm, hfrom⟩
  · exact Or.inl (ht.names q hq ▸ hname)

/-- **What a change of the disk by one thread preserves.** -/
theorem Writers.touch (h : Writers su d threads) (hn : threads[n]? = some t)
    (hreq : t'.req = t.req) (ht : Touch su d d' t t' i) :
    Writers su d' (threads.set n t') := by
  have hpath := path_of_req su hreq
  -- an inode that gets a name has none, and no other thread has it
  have hfresh : (i = d.next ∨ t.temp su = some i) → d.Unnamed i ∧
      ∀ (m : Nat) (u : Thread), threads[m]? = some u → u.held = some i → m = n := by
    rintro (rfl | htemp)
    · exact ⟨h.sound.unnamed_next, fun m u hu hui =>
        absurd (h.held m u _ hu hui).1 (lt_irrefl _)⟩
    · exact h.temp n t i hn htemp
  refine ⟨⟨?_, ?_⟩, ?_, ?_⟩
  · intro q j hname
    rcases ht.names_cases hname with hold | ⟨rfl, rfl, -⟩
    · exact Nat.lt_of_lt_of_le (h.sound.used q j hold) ht.next
    · exact ht.used hname
  · intro q r j hq hr
    rcases ht.names_cases hq with hq' | ⟨rfl, rfl, hfrom⟩
    · rcases ht.names_cases hr with hr' | ⟨rfl, rfl, hfrom⟩
      · exact h.sound.one q r j hq' hr'
      · exact absurd hq' ((hfresh hfrom).1 q)
    · rcases ht.names_cases hr with hr' | ⟨rfl, -, -⟩
      · exact absurd hr' ((hfresh hfrom).1 r)
      · rfl
  · intro m u j hm hj
    rcases threads_set hn hm with ⟨-, rfl⟩ | ⟨hmn, hm'⟩
    · obtain ⟨rfl, hlt⟩ := ht.held j hj
      refine ⟨hlt, fun q hq => ?_⟩
      rw [hpath]
      rcases ht.names_cases hq with hold | ⟨rfl, -, -⟩
      · by_contra hne
        exact h.other hn ht q hne hold
      · rfl
    · obtain ⟨hlt, hhome⟩ := h.held m u j hm' hj
      refine ⟨Nat.lt_of_lt_of_le hlt ht.next, fun q hq => ?_⟩
      rcases ht.names_cases hq with hold | ⟨-, rfl, hfrom⟩
      · exact hhome q hold
      · exact absurd ((hfresh hfrom).2 m u hm' hj) hmn
  · intro m u j hm hj
    rcases threads_set hn hm with ⟨rfl, rfl⟩ | ⟨hmn, hm'⟩
    · obtain ⟨hsame, hfrom⟩ := ht.temp j hj
      obtain ⟨rfl, -⟩ := ht.held j (Thread.held_of_temp hj)
      obtain ⟨hunnamed, hsole⟩ := hfresh hfrom
      refine ⟨fun q hq => ?_, fun k v hk hv => ?_⟩
      · by_cases hqp : q = su.path t
        · rw [hqp, hsame] at hq
          exact hunnamed _ hq
        · rw [ht.names q hqp] at hq
          exact hunnamed q hq
      · rcases threads_set hn hk with ⟨rfl, -⟩ | ⟨-, hk'⟩
        · rfl
        · exact hsole k v hk' hv
    · obtain ⟨hunnamed, hsole⟩ := h.temp m u j hm' hj
      refine ⟨fun q hq => ?_, fun k v hk hv => ?_⟩
      · rcases ht.names_cases hq with hold | ⟨-, rfl, hfrom⟩
        · exact hunnamed q hold
        · exact hmn ((hfresh hfrom).2 m u hm' (Thread.held_of_temp hj))
      · rcases threads_set hn hk with ⟨rfl, rfl⟩ | ⟨-, hk'⟩
        · -- the thread's inode is not a new file of another
          obtain ⟨rfl, -⟩ := ht.held j hv
          rcases ht.inode with rfl | hheld | hname
          · exact absurd (h.held m u _ hm' (Thread.held_of_temp hj)).1 (lt_irrefl _)
          · exact hsole k t hn hheld
          · exact absurd hname (hunnamed _)
        · exact hsole k v hk' hv

/-- A thread that writes nothing takes the place of one. -/
theorem Writers.keep (h : Writers su d threads) (hn : threads[n]? = some t)
    (hheld : t'.held = none) : Writers su d (threads.set n t') := by
  refine ⟨h.sound, ?_, ?_⟩
  · intro m u j hm hj
    rcases threads_set hn hm with ⟨-, rfl⟩ | ⟨-, hm'⟩
    · exact absurd (hheld.symm.trans hj) (by simp)
    · exact h.held m u j hm' hj
  · intro m u j hm hj
    rcases threads_set hn hm with ⟨-, rfl⟩ | ⟨-, hm'⟩
    · exact absurd (hheld.symm.trans (Thread.held_of_temp hj)) (by simp)
    · obtain ⟨hunnamed, hsole⟩ := h.temp m u j hm' hj
      refine ⟨hunnamed, fun k v hk hv => ?_⟩
      rcases threads_set hn hk with ⟨-, rfl⟩ | ⟨-, hk'⟩
      · exact absurd (hheld.symm.trans hv) (by simp)
      · exact hsole k v hk' hv

end Threads

/-! ## The steps of a write -/

/-- The thread is in `NfsReadFile`, behind its `stat`. -/
def Thread.Reads (t : Thread) : Prop :=
  match t.pc with
  | .look _ | .wait _ | .openRead _ _ | .read _ _ _ _ | .fstat _ _ _ | .fill _ _ => True
  | _ => False

/-- What the step of a thread at a point of `NfsWriteFile3` or before `unlink` does: it changes the
disk at one place and does not read. -/
structure Writes (su : Setup) (s s' : Server) (t t' : Thread) : Prop where
  touch : ∃ i, Touch su s.disk s'.disk t t' i
  cache : s'.cache = s.cache
  req : t'.req = t.req
  pc : ¬ t'.Reads

section WriteSteps

variable {s s' : Server} {t t' : Thread} {io : Io} {d d' : Disk} {i : Nat}

/-- A step that fails before it changes anything. -/
theorem writes_same (hd : s.disk.Sound) (t : Thread) (status : Int) :
    Writes su s s t (t.finish status) := by
  refine ⟨⟨s.disk.next, le_refl _, fun h => absurd h (hd.unnamed_next _), fun _ _ => rfl,
    fun _ _ => rfl, Or.inl rfl, Or.inl rfl, ?_, ?_⟩, rfl, rfl, fun h => h⟩
  · exact fun j hj => absurd hj (by simp [Thread.held, Thread.finish])
  · exact fun j hj => absurd hj (by simp [Thread.temp, Thread.finish])

/-- The open of a write. -/
theorem touch_openWrite (hd : d.Sound) {w : Write}
    (hopen : openWrite d (su.cfg.mode w.append) (su.path t) io.now = some (d', i)) :
    Touch su d d' t (t.goto (.writev i w)) i := by
  have hheld : ∀ j, (t.goto (.writev i w)).held = some j → j = i :=
    fun j hj => (Option.some.inj hj).symm
  have htemp : ∀ j, (t.goto (.writev i w)).temp su = some j → su.cfg.mode w.append = .rename := by
    intro j hj
    by_contra hmode
    simp [Thread.temp, hmode] at hj
  unfold openWrite at hopen
  split at hopen
  · -- a new file that has no name yet
    obtain ⟨rfl, rfl⟩ : (d.create io.now).1 = d' ∧ d.next = i := by
      simpa [Prod.ext_iff] using hopen
    exact ⟨by simp, fun h => absurd h (by simpa using hd.unnamed_next _),
      fun j hj => d.create_ne io.now hj, fun _ _ => rfl, Or.inl rfl, Or.inl rfl,
      fun j hj => ⟨hheld j hj, by simp⟩, fun _ _ => ⟨rfl, Or.inl rfl⟩⟩
  · -- a new file under the name
    rename_i hmode
    obtain ⟨rfl, rfl⟩ : (d.create io.now).1.setName (su.path t) (some (.file d.next)) = d' ∧
        d.next = i := by
      simpa [Prod.ext_iff] using hopen
    exact ⟨by simp, fun _ => by simp, fun j hj => d.create_ne io.now hj,
      fun q hq => Disk.names_setName_ne _ _ hq, Or.inr (Or.inr ⟨by simp, Or.inl rfl⟩), Or.inl rfl,
      fun j hj => ⟨hheld j hj, by simp⟩, fun j hj => absurd (htemp j hj) hmode⟩
  · rename_i j hmode hname
    obtain ⟨rfl, rfl⟩ : d.setInode j ⟨[], io.now⟩ = d' ∧ j = i := by
      simpa [Prod.ext_iff] using hopen
    have hlt : j < d.next := hd.used _ _ hname
    exact ⟨by simp, fun _ => by simpa using hlt, fun k hk => d.setInode_ne _ hk, fun _ _ => rfl,
      Or.inl rfl, Or.inr (Or.inr hname), fun k hk => ⟨hheld k hk, by simpa using hlt⟩,
      fun k hk => absurd (hmode.symm.trans (htemp k hk)) (by simp)⟩
  · rename_i j hmode hname
    obtain ⟨rfl, rfl⟩ : d = d' ∧ j = i := by simpa [Prod.ext_iff] using hopen
    have hlt : j < d.next := hd.used _ _ hname
    exact ⟨le_refl _, fun _ => hlt, fun _ _ => rfl, fun _ _ => rfl, Or.inl rfl,
      Or.inr (Or.inr hname), fun k hk => ⟨hheld k hk, hlt⟩,
      fun k hk => absurd (hmode.symm.trans (htemp k hk)) (by simp)⟩
  · exact absurd hopen (by simp)

/-- A `writev`, also one that is cut short. -/
theorem touch_writev {w : Write} (hpc : t.pc = .writev i w) (hlt : i < d.next) (bs : Bytes)
    (now : Int) {pc : Pc} (hgoto : pc = .rename i w ∧ su.cfg.mode w.append = .rename ∨
      (t.goto pc).held = none) :
    Touch su d (writeBytes d (su.cfg.mode w.append) i bs now) t (t.goto pc) i := by
  have hheld : t.held = some i := by rw [Thread.held, hpc]
  refine ⟨by simp, fun _ => by simpa using hlt, fun j hj => writeBytes_ne d _ bs now hj,
    fun q _ => by simp, by simp, Or.inr (Or.inl hheld), ?_, ?_⟩
  · intro j hj
    rcases hgoto with ⟨rfl, -⟩ | hnone
    · obtain rfl := Option.some.inj hj
      exact ⟨rfl, by simpa using hlt⟩
    · exact absurd (hnone.symm.trans hj) (by simp)
  · intro j hj
    rcases hgoto with ⟨rfl, hmode⟩ | hnone
    · refine ⟨by simp, Or.inr ?_⟩
      rw [Thread.temp, hpc]
      exact if_pos hmode
    · exact absurd (hnone.symm.trans (Thread.held_of_temp hj)) (by simp)

/-- The point of a thread is one of a write. -/
def Thread.AtWrite (t : Thread) : Prop :=
  match t.pc with
  | .openWrite _ | .writev _ _ | .rename _ _ | .unlink => True
  | _ => False

/-- **The steps of a write.** -/
theorem writes_of_advance {threads : List Thread} {n : Nat} (hw : Writers su s.disk threads)
    (hn : threads[n]? = some t) (hat : t.AtWrite) (h : advance su s t io = some (s', t')) :
    Writes su s s' t t' := by
  have hd := hw.sound
  unfold advance at h
  dsimp only at h
  cases hpc : t.pc with
  | openWrite w =>
      rw [hpc] at h
      dsimp only at h
      split_ifs at h
      · obtain ⟨rfl, rfl⟩ := Prod.mk.inj (Option.some.inj h)
        exact writes_same hd t _
      · split at h
        · obtain ⟨rfl, rfl⟩ := Prod.mk.inj (Option.some.inj h)
          exact writes_same hd t _
        · obtain ⟨rfl, rfl⟩ := Prod.mk.inj (Option.some.inj h)
          exact writes_same hd t _
        · rename_i d' i _ hopen
          obtain ⟨rfl, rfl⟩ := Prod.mk.inj (Option.some.inj h)
          exact ⟨⟨i, touch_openWrite hd hopen⟩, rfl, rfl, fun h => h⟩
  | writev i w =>
      have hlt : i < s.disk.next := (hw.held n t i hn (by rw [Thread.held, hpc])).1
      rw [hpc] at h
      dsimp only at h
      split at h
      · obtain ⟨rfl, rfl⟩ := Prod.mk.inj (Option.some.inj h)
        exact ⟨⟨i, touch_writev hpc hlt _ _ (Or.inr rfl)⟩, rfl, rfl, fun h => h⟩
      · obtain ⟨rfl, rfl⟩ := Prod.mk.inj (Option.some.inj h)
        by_cases hmode : su.cfg.mode w.append = .rename
        · rw [if_pos hmode]
          exact ⟨⟨i, touch_writev hpc hlt _ _ (Or.inl ⟨rfl, hmode⟩)⟩, rfl, rfl, fun h => h⟩
        · rw [if_neg hmode]
          exact ⟨⟨i, touch_writev hpc hlt _ _ (Or.inr rfl)⟩, rfl, rfl, fun h => h⟩
  | rename i w =>
      have hheld : t.held = some i := by rw [Thread.held, hpc]
      have htemp : t.temp su = some i := by rw [Thread.temp, hpc]
      have hlt : i < s.disk.next := (hw.held n t i hn hheld).1
      rw [hpc] at h
      dsimp only at h
      split at h
      · obtain ⟨rfl, rfl⟩ := Prod.mk.inj (Option.some.inj h)
        exact writes_same hd t _
      · obtain ⟨rfl, rfl⟩ := Prod.mk.inj (Option.some.inj h)
        exact writes_same hd t _
      · obtain ⟨rfl, rfl⟩ := Prod.mk.inj (Option.some.inj h)
        refine ⟨⟨i, ⟨le_refl _, fun _ => hlt, fun _ _ => rfl,
          fun q hq => Disk.names_setName_ne _ _ hq, Or.inr (Or.inr ⟨by simp, Or.inr htemp⟩),
          Or.inr (Or.inl hheld), ?_, ?_⟩⟩, rfl, rfl, fun h => h⟩
        · exact fun j hj => absurd hj (by simp [Thread.held])
        · exact fun j hj => absurd hj (by simp [Thread.temp])
  | unlink =>
      rw [hpc] at h
      dsimp only at h
      split at h
      · obtain ⟨rfl, rfl⟩ := Prod.mk.inj (Option.some.inj h)
        exact writes_same hd t _
      · obtain ⟨rfl, rfl⟩ := Prod.mk.inj (Option.some.inj h)
        exact writes_same hd t _
      · obtain ⟨rfl, rfl⟩ := Prod.mk.inj (Option.some.inj h)
        exact writes_same hd t _
      · obtain ⟨rfl, rfl⟩ := Prod.mk.inj (Option.some.inj h)
        refine ⟨⟨s.disk.next, ⟨le_refl _, fun h => absurd h (by simp), fun _ _ => rfl,
          fun q hq => Disk.names_setName_ne _ _ hq, Or.inr (Or.inl (by simp)), Or.inl rfl, ?_, ?_⟩⟩,
          rfl, rfl, fun h => h⟩
        · exact fun j hj => absurd hj (by simp [Thread.held])
        · exact fun j hj => absurd hj (by simp [Thread.temp])
  | stat => simp [Thread.AtWrite, hpc] at hat
  | look st => simp [Thread.AtWrite, hpc] at hat
  | wait st => simp [Thread.AtWrite, hpc] at hat
  | openRead st id => simp [Thread.AtWrite, hpc] at hat
  | read st id i trys => simp [Thread.AtWrite, hpc] at hat
  | fstat id i trys => simp [Thread.AtWrite, hpc] at hat
  | fill id result => simp [Thread.AtWrite, hpc] at hat
  | edit got => simp [Thread.AtWrite, hpc] at hat
  | flush => simp [Thread.AtWrite, hpc] at hat
  | done status out => simp [Thread.AtWrite, hpc] at hat

end WriteSteps

/-! ## Versions -/

/-- How the versions of a history stand to each other: no change is newer than the clock, what has
settled is not newer than what can be seen, what has returned has settled, and a change has settled
for all keys of the file but that of its writer. -/
structure Counts (su : Setup) (d : Disk) (h : Hist) (threads : List Thread) : Prop where
  ver_le : ∀ i, h.ver i ≤ h.clock
  gone_le : ∀ p, h.gone p ≤ h.clock
  settled_le : ∀ key, h.settled key ≤ h.vis d (nfsPath su.cfg key)
  acked_le : ∀ key, h.acked (nfsPath su.cfg key) ≤ h.settled key
  since_le : ∀ (n : Nat) (t : Thread), threads[n]? = some t → h.since n ≤ h.acked (su.path t)
  eff_vis : ∀ (n : Nat) (t : Thread), threads[n]? = some t → h.eff n ≤ h.vis d (su.path t)
  eff_settled : ∀ (n : Nat) (t : Thread), threads[n]? = some t → ∀ key,
    nfsPath su.cfg key = su.path t → key ≠ t.req.key → h.eff n ≤ h.settled key
  eff_new : ∀ n, threads.length ≤ n → h.eff n = 0

section Versions

variable {threads : List Thread} {n : Nat} {t t' : Thread} {d d' : Disk} {i : Nat} {h h' : Hist}

/-- What can be seen is not newer than the clock. -/
theorem Counts.vis_le (hc : Counts su d h threads) (p : Bytes) : h.vis d p ≤ h.clock := by
  unfold Hist.vis
  split
  · exact hc.ver_le _
  · exact hc.gone_le p

@[simp] theorem vis_record (h : Hist) (d d' : Disk) (p : Bytes) :
    (h.record d').vis d p = h.vis d p := rfl

/-- A name is what it was: its file is, too. -/
theorem not_differs {p : Bytes} (hsame : d.differs d' p = false) :
    d'.names p = d.names p ∧ d'.fileAt p = d.fileAt p := by
  simpa [Disk.differs] using hsame

/-- A change is what is seen now. -/
theorem vis_change_self (h : Hist) (n : Nat) (hdiff : d.differs d' (su.path t) = true) :
    (h.change su d d' n t).vis d' (su.path t) = h.clock + 1 := by
  unfold Hist.change
  rw [if_pos hdiff]
  unfold Hist.vis Hist.newVer Hist.newGone
  dsimp only
  cases hname : d'.names (su.path t) with
  | none => simp
  | some node =>
      cases node with
      | file j => simp
      | dir => simp
      | special => simp

/-- An inode keeps its version or gets the new one. -/
theorem newVer_cases (h : Hist) (d' : Disk) (p : Bytes) (j : Nat) :
    h.newVer d' p j = h.ver j ∨ h.newVer d' p j = h.clock + 1 := by
  unfold Hist.newVer
  cases d'.names p with
  | none => exact Or.inl rfl
  | some node =>
      cases node with
      | file i =>
          by_cases hj : j = i
          · subst hj
            exact Or.inr (Function.update_self _ _ _)
          · exact Or.inl (Function.update_of_ne hj _ _)
      | dir => exact Or.inl rfl
      | special => exact Or.inl rfl

/-- So does a name without a file. -/
theorem newGone_cases (h : Hist) (d' : Disk) (p q : Bytes) :
    h.newGone d' p q = h.gone q ∨ h.newGone d' p q = h.clock + 1 := by
  have hupdate : Function.update h.gone p (h.clock + 1) q = h.gone q ∨
      Function.update h.gone p (h.clock + 1) q = h.clock + 1 := by
    by_cases hq : q = p
    · subst hq
      exact Or.inr (Function.update_self _ _ _)
    · exact Or.inl (Function.update_of_ne hq _ _)
  unfold Hist.newGone
  cases d'.names p with
  | none => exact hupdate
  | some node =>
      cases node with
      | file i => exact Or.inl rfl
      | dir => exact hupdate
      | special => exact hupdate

/-- Versions do not get older. -/
theorem ver_le_change (hver : ∀ i, h.ver i ≤ h.clock) (n : Nat) (j : Nat) :
    h.ver j ≤ (h.change su d d' n t).ver j := by
  unfold Hist.change
  split_ifs
  · show h.ver j ≤ h.newVer d' (su.path t) j
    rcases newVer_cases h d' (su.path t) j with heq | heq
    · exact heq.ge
    · exact heq ▸ Nat.le_succ_of_le (hver j)
  · exact le_refl _

theorem gone_le_change (hgone : ∀ p, h.gone p ≤ h.clock) (n : Nat) (p : Bytes) :
    h.gone p ≤ (h.change su d d' n t).gone p := by
  unfold Hist.change
  split_ifs
  · show h.gone p ≤ h.newGone d' (su.path t) p
    rcases newGone_cases h d' (su.path t) p with heq | heq
    · exact heq.ge
    · exact heq ▸ Nat.le_succ_of_le (hgone p)
  · exact le_refl _

/-- What is seen does not get older. -/
theorem Counts.vis_le_change (hc : Counts su d h threads)
    (hnames : ∀ q, q ≠ su.path t → d'.names q = d.names q) (n : Nat) (p : Bytes) :
    h.vis d p ≤ (h.change su d d' n t).vis d' p := by
  by_cases hdiff : d.differs d' (su.path t) = true
  · by_cases hp : p = su.path t
    · rw [hp, vis_change_self h n hdiff]
      exact Nat.le_succ_of_le (hc.vis_le _)
    · unfold Hist.vis
      rw [hnames p hp]
      split
      · exact ver_le_change hc.ver_le n _
      · exact gone_le_change hc.gone_le n p
  · have hsame := not_differs (by simpa using hdiff)
    have hname : d'.names p = d.names p := by
      by_cases hp : p = su.path t
      · rw [hp]
        exact hsame.1
      · exact hnames p hp
    unfold Hist.change
    rw [if_neg hdiff]
    unfold Hist.vis
    rw [hname]

/-- What has settled stays settled. -/
theorem Counts.settled_le_change (hc : Counts su d h threads) (n : Nat) (key : Bytes) :
    h.settled key ≤ (h.change su d d' n t).settled key := by
  unfold Hist.change
  split_ifs
  · dsimp only
    split_ifs
    · exact Nat.le_succ_of_le (le_trans (hc.settled_le key) (hc.vis_le _))
    · exact le_refl _
  · exact le_refl _

/-- A change settles nothing for other files, and nothing for the key of the writer. -/
theorem settled_change_of (h : Hist) (n : Nat) {key : Bytes}
    (hkey : nfsPath su.cfg key ≠ su.path t ∨ key = t.req.key) :
    (h.change su d d' n t).settled key = h.settled key := by
  unfold Hist.change
  split_ifs
  · show (if _ then _ else _) = _
    rw [if_neg]
    rintro ⟨hpath, hne⟩
    rcases hkey with h | h
    · exact h hpath
    · exact hne h
  · rfl

@[simp] theorem since_change (h : Hist) (n : Nat) : (h.change su d d' n t).since = h.since := by
  unfold Hist.change
  split_ifs <;> rfl

@[simp] theorem acked_change (h : Hist) (n : Nat) : (h.change su d d' n t).acked = h.acked := by
  unfold Hist.change
  split_ifs <;> rfl

@[simp] theorem got_change (h : Hist) (n : Nat) : (h.change su d d' n t).got = h.got := by
  unfold Hist.change
  split_ifs <;> rfl

@[simp] theorem fver_change (h : Hist) (n : Nat) : (h.change su d d' n t).fver = h.fver := by
  unfold Hist.change
  split_ifs <;> rfl

@[simp] theorem had_change (h : Hist) (n : Nat) : (h.change su d d' n t).had = h.had := by
  unfold Hist.change
  split_ifs <;> rfl

@[simp] theorem named_change (h : Hist) (n : Nat) : (h.change su d d' n t).named = h.named := by
  unfold Hist.change
  split_ifs <;> rfl

theorem eff_change_ne (h : Hist) {n m : Nat} (hm : m ≠ n) :
    (h.change su d d' n t).eff m = h.eff m := by
  unfold Hist.change
  split_ifs
  · exact Function.update_of_ne hm _ _
  · rfl

/-- A change of the disk by thread `n` keeps the versions in order. -/
theorem Counts.change (hc : Counts su d h threads) (hn : threads[n]? = some t)
    (hreq : t'.req = t.req) (hnames : ∀ q, q ≠ su.path t → d'.names q = d.names q) :
    Counts su d' (h.change su d d' n t) (threads.set n t') := by
  have hpath := path_of_req su hreq
  have hvis := hc.vis_le_change hnames n
  have hold : ∀ (m : Nat) (u : Thread), (threads.set n t')[m]? = some u →
      ∃ v, threads[m]? = some v ∧ u.req = v.req := by
    intro m u hu
    rcases threads_set hn hu with ⟨rfl, rfl⟩ | ⟨-, hu⟩
    · exact ⟨t, hn, hreq⟩
    · exact ⟨u, hu, rfl⟩
  refine ⟨?_, ?_, ?_, ?_, ?_, ?_, ?_, ?_⟩
  · intro j
    by_cases hdiff : d.differs d' (su.path t) = true
    · unfold Hist.change
      rw [if_pos hdiff]
      show h.newVer d' (su.path t) j ≤ h.clock + 1
      rcases newVer_cases h d' (su.path t) j with heq | heq
      · exact heq ▸ Nat.le_succ_of_le (hc.ver_le j)
      · exact heq.le
    · unfold Hist.change
      rw [if_neg hdiff]
      exact hc.ver_le j
  · intro p
    by_cases hdiff : d.differs d' (su.path t) = true
    · unfold Hist.change
      rw [if_pos hdiff]
      show h.newGone d' (su.path t) p ≤ h.clock + 1
      rcases newGone_cases h d' (su.path t) p with heq | heq
      · exact heq ▸ Nat.le_succ_of_le (hc.gone_le p)
      · exact heq.le
    · unfold Hist.change
      rw [if_neg hdiff]
      exact hc.gone_le p
  · intro key
    by_cases hkey : nfsPath su.cfg key ≠ su.path t ∨ key = t.req.key
    · rw [settled_change_of h n hkey]
      exact le_trans (hc.settled_le key) (hvis _)
    · push Not at hkey
      by_cases hdiff : d.differs d' (su.path t) = true
      · rw [hkey.1, vis_change_self h n hdiff]
        unfold Hist.change
        rw [if_pos hdiff]
        exact (if_pos hkey).le
      · have heq : (h.change su d d' n t).settled key = h.settled key := by
          unfold Hist.change
          rw [if_neg hdiff]
        rw [heq]
        exact le_trans (hc.settled_le key) (hvis _)
  · intro key
    rw [acked_change]
    exact le_trans (hc.acked_le key) (hc.settled_le_change n key)
  · intro m u hu
    obtain ⟨v, hv, hreq'⟩ := hold m u hu
    rw [since_change, acked_change, path_of_req su hreq']
    exact hc.since_le m v hv
  · intro m u hu
    rcases threads_set hn hu with ⟨rfl, rfl⟩ | ⟨hm, hu⟩
    · rw [hpath]
      by_cases hdiff : d.differs d' (su.path t) = true
      · rw [vis_change_self h _ hdiff]
        unfold Hist.change
        rw [if_pos hdiff]
        exact (Function.update_self _ _ _).le
      · have heq : (h.change su d d' m t).eff m = h.eff m := by
          unfold Hist.change
          rw [if_neg hdiff]
        rw [heq]
        exact le_trans (hc.eff_vis m t hn) (hvis _)
    · rw [eff_change_ne h hm]
      exact le_trans (hc.eff_vis m u hu) (hvis _)
  · intro m u hu key hkey hne
    rcases threads_set hn hu with ⟨rfl, rfl⟩ | ⟨hm, hu⟩
    · rw [hpath] at hkey
      rw [hreq] at hne
      by_cases hdiff : d.differs d' (su.path t) = true
      · unfold Hist.change
        rw [if_pos hdiff]
        show Function.update h.eff m (h.clock + 1) m ≤ if _ then _ else _
        rw [Function.update_self, if_pos ⟨hkey, hne⟩]
      · unfold Hist.change
        rw [if_neg hdiff]
        exact hc.eff_settled m t hn key hkey hne
    · rw [eff_change_ne h hm]
      exact le_trans (hc.eff_settled m u hu key hkey hne) (hc.settled_le_change n key)
  · intro m hm
    rw [List.length_set] at hm
    obtain ⟨hlt, -⟩ := List.getElem?_eq_some_iff.mp hn
    rw [eff_change_ne h (by omega)]
    exact hc.eff_new m hm

/-- Versions stay in order when nothing they depend on changes. -/
theorem Counts.congr (hc : Counts su d h threads) (hn : threads[n]? = some t)
    (hreq : t'.req = t.req) (hver : h'.ver = h.ver) (hgone : h'.gone = h.gone)
    (hclock : h'.clock = h.clock) (hsettled : h'.settled = h.settled) (hacked : h'.acked = h.acked)
    (hsince : h'.since = h.since) (heff : h'.eff = h.eff) :
    Counts su d h' (threads.set n t') := by
  have hvis : ∀ p, h'.vis d p = h.vis d p := by
    intro p
    unfold Hist.vis
    rw [hver, hgone]
  have hold : ∀ (m : Nat) (u : Thread), (threads.set n t')[m]? = some u →
      ∃ v, threads[m]? = some v ∧ u.req = v.req := by
    intro m u hu
    rcases threads_set hn hu with ⟨rfl, rfl⟩ | ⟨-, hu⟩
    · exact ⟨t, hn, hreq⟩
    · exact ⟨u, hu, rfl⟩
  refine ⟨?_, ?_, ?_, ?_, ?_, ?_, ?_, ?_⟩
  · rw [hver, hclock]
    exact hc.ver_le
  · rw [hgone, hclock]
    exact hc.gone_le
  · intro key
    rw [hsettled, hvis]
    exact hc.settled_le key
  · rw [hsettled, hacked]
    exact hc.acked_le
  · intro m u hu
    obtain ⟨v, hv, hreq'⟩ := hold m u hu
    rw [hsince, hacked, path_of_req su hreq']
    exact hc.since_le m v hv
  · intro m u hu
    obtain ⟨v, hv, hreq'⟩ := hold m u hu
    rw [heff, hvis, path_of_req su hreq']
    exact hc.eff_vis m v hv
  · intro m u hu key hkey hne
    obtain ⟨v, hv, hreq'⟩ := hold m u hu
    rw [path_of_req su hreq'] at hkey
    rw [hreq'] at hne
    rw [heff, hsettled]
    exact hc.eff_settled m v hv key hkey hne
  · intro m hm
    rw [List.length_set] at hm
    rw [heff]
    exact hc.eff_new m hm

/-- A write flushes and returns: its changes settle for its own key too. -/
theorem Counts.flush (hc : Counts su d h threads) (hn : threads[n]? = some t)
    (hreq : t'.req = t.req) :
    Counts su d
      { h with
        settled := Function.update h.settled t.req.key (max (h.settled t.req.key) (h.eff n))
        acked := Function.update h.acked (su.path t) (max (h.acked (su.path t)) (h.eff n)) }
      (threads.set n t') := by
  have hold : ∀ (m : Nat) (u : Thread), (threads.set n t')[m]? = some u →
      ∃ v, threads[m]? = some v ∧ u.req = v.req := by
    intro m u hu
    rcases threads_set hn hu with ⟨rfl, rfl⟩ | ⟨-, hu⟩
    · exact ⟨t, hn, hreq⟩
    · exact ⟨u, hu, rfl⟩
  have hset : ∀ key, h.settled key ≤
      Function.update h.settled t.req.key (max (h.settled t.req.key) (h.eff n)) key := by
    intro key
    by_cases hkey : key = t.req.key
    · rw [hkey, Function.update_self]
      exact le_max_left _ _
    · rw [Function.update_of_ne hkey]
  have hack : ∀ p, h.acked p ≤
      Function.update h.acked (su.path t) (max (h.acked (su.path t)) (h.eff n)) p := by
    intro p
    by_cases hp : p = su.path t
    · rw [hp, Function.update_self]
      exact le_max_left _ _
    · rw [Function.update_of_ne hp]
  refine ⟨hc.ver_le, hc.gone_le, ?_, ?_, ?_, ?_, ?_, ?_⟩
  · intro key
    show Function.update h.settled t.req.key (max (h.settled t.req.key) (h.eff n)) key ≤
      h.vis d (nfsPath su.cfg key)
    by_cases hkey : key = t.req.key
    · rw [hkey, Function.update_self]
      exact max_le (hc.settled_le _) (hc.eff_vis n t hn)
    · rw [Function.update_of_ne hkey]
      exact hc.settled_le key
  · intro key
    show Function.update h.acked (su.path t) (max (h.acked (su.path t)) (h.eff n))
        (nfsPath su.cfg key) ≤
      Function.update h.settled t.req.key (max (h.settled t.req.key) (h.eff n)) key
    by_cases hp : nfsPath su.cfg key = su.path t
    · rw [hp, Function.update_self]
      refine max_le (hp ▸ le_trans (hc.acked_le key) (hset key)) ?_
      by_cases hkey : key = t.req.key
      · rw [hkey, Function.update_self]
        exact le_max_right _ _
      · exact le_trans (hc.eff_settled n t hn key hp hkey) (hset key)
    · rw [Function.update_of_ne hp]
      exact le_trans (hc.acked_le key) (hset key)
  · intro m u hu
    obtain ⟨v, hv, hreq'⟩ := hold m u hu
    rw [path_of_req su hreq']
    exact le_trans (hc.since_le m v hv) (hack _)
  · intro m u hu
    obtain ⟨v, hv, hreq'⟩ := hold m u hu
    rw [path_of_req su hreq']
    exact hc.eff_vis m v hv
  · intro m u hu key hkey hne
    obtain ⟨v, hv, hreq'⟩ := hold m u hu
    rw [path_of_req su hreq'] at hkey
    rw [hreq'] at hne
    exact le_trans (hc.eff_settled m v hv key hkey hne) (hset key)
  · intro m hm
    rw [List.length_set] at hm
    exact hc.eff_new m hm

/-- The threads behind a request that comes. -/
theorem threads_append {req : Request} {m : Nat} {u : Thread}
    (hu : (threads ++ [req.begin])[m]? = some u) :
    m < threads.length ∧ threads[m]? = some u ∨ m = threads.length ∧ u = req.begin := by
  rw [List.getElem?_append] at hu
  split_ifs at hu with hlt
  · exact Or.inl ⟨hlt, hu⟩
  · obtain ⟨hm, heq⟩ := List.getElem?_eq_some_iff.mp hu
    simp only [List.length_singleton, Nat.lt_one_iff] at hm
    refine Or.inr ⟨by omega, ?_⟩
    rw [← heq]
    simp

@[simp] theorem Request.begin_req (req : Request) : req.begin.req = req := by
  cases req <;> rfl

/-- A request comes: it knows what has returned. -/
theorem Counts.start (hc : Counts su d h threads) (req : Request) :
    Counts su d (h.begin threads.length (nfsPath su.cfg req.key)) (threads ++ [req.begin]) := by
  refine ⟨hc.ver_le, hc.gone_le, hc.settled_le, hc.acked_le, ?_, ?_, ?_, ?_⟩
  · intro m u hu
    show Function.update h.since threads.length (h.acked (nfsPath su.cfg req.key)) m ≤ _
    rcases threads_append hu with ⟨hlt, hu⟩ | ⟨rfl, rfl⟩
    · rw [Function.update_of_ne (by omega)]
      exact hc.since_le m u hu
    · rw [Function.update_self, Setup.path, Request.begin_req]
      exact le_refl _
  · intro m u hu
    rcases threads_append hu with ⟨-, hu⟩ | ⟨rfl, rfl⟩
    · exact hc.eff_vis m u hu
    · exact (hc.eff_new _ (le_refl _)).le.trans (Nat.zero_le _)
  · intro m u hu key hkey hne
    rcases threads_append hu with ⟨-, hu⟩ | ⟨rfl, rfl⟩
    · exact hc.eff_settled m u hu key hkey hne
    · exact (hc.eff_new _ (le_refl _)).le.trans (Nat.zero_le _)
  · intro m hm
    rw [List.length_append] at hm
    exact hc.eff_new m (by omega)

end Versions

/-! ## Entries being filled -/

/-- A read in progress has the entry of its key, the entry has no value, and no other read has it.
Only keys of requests have entries. -/
structure Entries (c : Cache) (threads : List Thread) : Prop where
  holds : ∀ (n : Nat) (t : Thread) (id : Nat), threads[n]? = some t → t.filling = some id →
    c.entry t.req.key = some id ∧ c.value id = none
  sole : ∀ (n m : Nat) (t u : Thread) (id : Nat), threads[n]? = some t → threads[m]? = some u →
    t.filling = some id → u.filling = some id → n = m
  keys : ∀ key id, c.entry key = some id → ∃ t ∈ threads, t.req.key = key

section Filling

variable {threads : List Thread} {n : Nat} {t t' : Thread} {c : Cache}

/-- The keys of requests stay. -/
theorem keys_set (hn : threads[n]? = some t) (hreq : t'.req = t.req) {key : Bytes}
    (hkey : ∃ u ∈ threads, u.req.key = key) : ∃ u ∈ threads.set n t', u.req.key = key := by
  obtain ⟨u, hu, rfl⟩ := hkey
  obtain ⟨m, hm⟩ := List.mem_iff_getElem?.mp hu
  by_cases hmn : m = n
  · obtain rfl : u = t := by rw [hmn, hn] at hm; exact (Option.some.inj hm).symm
    exact ⟨t', List.mem_iff_getElem?.mpr ⟨n, threads_set_self hn⟩, by rw [hreq]⟩
  · exact ⟨u, List.mem_iff_getElem?.mpr ⟨m, (threads_set_ne hmn).trans hm⟩, rfl⟩

/-- A step that leaves the cache alone, and in which no read begins to fill an entry. -/
theorem Entries.keep (h : Entries c threads) (hn : threads[n]? = some t) (hreq : t'.req = t.req)
    (hfilling : ∀ id, t'.filling = some id → t.filling = some id) :
    Entries c (threads.set n t') := by
  have hold : ∀ (m : Nat) (u : Thread) (id : Nat), (threads.set n t')[m]? = some u →
      u.filling = some id → ∃ v, threads[m]? = some v ∧ u.req = v.req ∧ v.filling = some id := by
    intro m u id hu hid
    rcases threads_set hn hu with ⟨rfl, rfl⟩ | ⟨-, hu⟩
    · exact ⟨t, hn, hreq, hfilling id hid⟩
    · exact ⟨u, hu, rfl, hid⟩
  refine ⟨?_, ?_, ?_⟩
  · intro m u id hu hid
    obtain ⟨v, hv, hreq', hid'⟩ := hold m u id hu hid
    rw [hreq']
    exact h.holds m v id hv hid'
  · intro m k u v id hu hv hid hid'
    obtain ⟨u', hu', -, hui⟩ := hold m u id hu hid
    obtain ⟨v', hv', -, hvi⟩ := hold k v id hv hid'
    exact h.sole m k u' v' id hu' hv' hui hvi
  · intro key id hkey
    exact keys_set hn hreq (h.keys key id hkey)

/-- An entry no read has to fill may go. -/
theorem Entries.delete (h : Entries c threads) {id : Nat}
    (hid : ∀ u ∈ threads, u.filling ≠ some id) : Entries (c.delete id) threads := by
  refine ⟨?_, h.sole, ?_⟩
  · intro m u j hu hj
    obtain ⟨hentry, hvalue⟩ := h.holds m u j hu hj
    have hne : c.entry u.req.key ≠ some id := by
      rw [hentry]
      intro heq
      exact hid u (List.mem_of_getElem? hu) (heq ▸ hj)
    exact ⟨(if_neg hne).trans hentry, hvalue⟩
  · intro key j hj
    have hentry : (if c.entry key = some id then none else c.entry key) = some j := hj
    split_ifs at hentry
    exact h.keys key j hentry

/-- A flush takes no entry from a read. -/
theorem Entries.flush (h : Entries c threads) {key : Bytes}
    (hid : ∀ id ∈ c.entry key, ∀ u ∈ threads, u.filling ≠ some id) :
    Entries (nfsFlush c key) threads := by
  unfold nfsFlush
  split
  · exact h
  · rename_i id hentry
    exact h.delete (hid id hentry)

/-- The read that has an entry puts a value into it, or deletes it. -/
theorem Entries.store (h : Entries c threads) (hn : threads[n]? = some t) (hreq : t'.req = t.req)
    {id : Nat} (hid : t.filling = some id) (hid' : t'.filling = none) (f : Option Cached) :
    Entries (store c id f) (threads.set n t') := by
  have hothers : ∀ (m : Nat) (u : Thread) (j : Nat), (threads.set n t')[m]? = some u →
      u.filling = some j → threads[m]? = some u ∧ j ≠ id := by
    intro m u j hu hj
    rcases threads_set hn hu with ⟨-, rfl⟩ | ⟨hmn, hu⟩
    · exact absurd (hid'.symm.trans hj) (by simp)
    · refine ⟨hu, ?_⟩
      rintro rfl
      exact hmn (h.sole m n u t j hu hn hj hid)
  refine ⟨?_, ?_, ?_⟩
  · intro m u j hu hj
    obtain ⟨hu', hne⟩ := hothers m u j hu hj
    obtain ⟨hentry, hvalue⟩ := h.holds m u j hu' hj
    cases f with
    | some f => exact ⟨hentry, (if_neg hne).trans hvalue⟩
    | none =>
        have hkeep : c.entry u.req.key ≠ some id := by
          rw [hentry]
          simpa using hne
        exact ⟨(if_neg hkeep).trans hentry, hvalue⟩
  · intro m k u v j hu hv hj hj'
    exact h.sole m k u v j (hothers m u j hu hj).1 (hothers k v j hv hj').1 hj hj'
  · intro key j hj
    refine keys_set hn hreq ?_
    cases f with
    | some f => exact h.keys key j hj
    | none =>
        have hentry : (if c.entry key = some id then none else c.entry key) = some j := hj
        split_ifs at hentry
        exact h.keys key j hentry

/-- What the first section of a read does to the cache, and what it finds. -/
inductive LookCase (c : Cache) (key : Bytes) (st : Stat) : Cache → Looked → Prop where
  | miss (hentry : c.entry key = none) : LookCase c key st (c.create key) (.fill c.next)
  | busy {id : Nat} (hentry : c.entry key = some id) (hvalue : c.value id = none) :
      LookCase c key st c .wait
  | hit {id : Nat} {f : Cached} (hentry : c.entry key = some id) (hvalue : c.value id = some f)
      (hst : f.st = st) : LookCase c key st c (.hit f)
  | old {id : Nat} {f : Cached} (hentry : c.entry key = some id) (hvalue : c.value id = some f)
      (hst : f.st ≠ st) : LookCase c key st (c.setValue id none) (.fill id)

theorem lookup_cases (c : Cache) (key : Bytes) (st : Stat) :
    LookCase c key st (lookup c key st).1 (lookup c key st).2 := by
  unfold lookup
  cases hentry : c.entry key with
  | none => exact .miss hentry
  | some id =>
      cases hvalue : c.value id with
      | none =>
          simp only [hvalue]
          exact .busy hentry hvalue
      | some f =>
          by_cases hst : f.st = st
          · simp only [hvalue, if_pos hst]
            exact .hit hentry hvalue hst
          · simp only [hvalue, if_neg hst]
            exact .old hentry hvalue hst

/-- A read that returns fills nothing. -/
theorem filling_readDone (t : Thread) (got : Except Int Bytes) :
    (t.readDone got).filling = none := by
  unfold Thread.readDone
  split <;> rfl

theorem req_readDone (t : Thread) (got : Except Int Bytes) : (t.readDone got).req = t.req := by
  unfold Thread.readDone
  split <;> rfl

theorem req_looked (t : Thread) (st : Stat) (l : Looked) : (t.looked st l).req = t.req := by
  cases l with
  | hit f => exact req_readDone t _
  | fill id => rfl
  | wait => rfl

/-- **The first section of a read.** The entry it begins to fill is a new one, or one with an old
value, so no other read has it. -/
theorem Entries.look (h : Entries c threads) (hn : threads[n]? = some t) {st : Stat} {c' : Cache}
    {l : Looked} (hlook : LookCase c t.req.key st c' l) :
    Entries c' (threads.set n (t.looked st l)) := by
  have hreq := req_looked t st l
  -- an entry that is begun: no read has it, and the entries of the others stay
  have hbegin : ∀ (c' : Cache) (id : Nat), c'.entry t.req.key = some id → c'.value id = none →
      (∀ key, key ≠ t.req.key → c'.entry key = c.entry key) →
      (∀ j, j ≠ id → c'.value j = c.value j) →
      (∀ (m : Nat) (u : Thread), threads[m]? = some u → u.filling ≠ some id) →
      (∀ (m : Nat) (u : Thread) (j : Nat), threads[m]? = some u → u.filling = some j →
        u.req.key ≠ t.req.key) →
      Entries c' (threads.set n (t.goto (.openRead st id))) := by
    intro c' id hentry hvalue hentries hvalues hfree hkeys
    refine ⟨?_, ?_, ?_⟩
    · intro m u j hu hj
      rcases threads_set hn hu with ⟨-, rfl⟩ | ⟨-, hu'⟩
      · obtain rfl := Option.some.inj hj
        exact ⟨hentry, hvalue⟩
      · obtain ⟨hold, hnone⟩ := h.holds m u j hu' hj
        refine ⟨(hentries _ (hkeys m u j hu' hj)).trans hold, (hvalues j ?_).trans hnone⟩
        intro heq
        exact hfree m u hu' (heq ▸ hj)
    · intro m k u v j hu hv hj hj'
      rcases threads_set hn hu with ⟨rfl, rfl⟩ | ⟨-, hu'⟩
      · rcases threads_set hn hv with ⟨rfl, -⟩ | ⟨-, hv'⟩
        · rfl
        · obtain rfl := Option.some.inj hj
          exact absurd hj' (hfree k v hv')
      · rcases threads_set hn hv with ⟨-, rfl⟩ | ⟨-, hv'⟩
        · obtain rfl := Option.some.inj hj'
          exact absurd hj (hfree m u hu')
        · exact h.sole m k u v j hu' hv' hj hj'
    · intro key j hj
      have hsame : (t.goto (.openRead st id)).req = t.req := rfl
      by_cases hkey : key = t.req.key
      · subst hkey
        exact ⟨_, List.mem_iff_getElem?.mpr ⟨n, threads_set_self hn⟩, hsame ▸ rfl⟩
      · rw [hentries key hkey] at hj
        exact keys_set hn hsame (h.keys key j hj)
  cases hlook with
  | miss hentry =>
      refine hbegin _ _ (if_pos rfl) (if_pos rfl) (fun key hkey => if_neg hkey)
        (fun j hj => if_neg hj) ?_ ?_
      · intro m u hu hid
        exact absurd (c.below (h.holds m u _ hu hid).1) (lt_irrefl _)
      · intro m u j hu hj hkey
        have hold := (h.holds m u j hu hj).1
        rw [hkey, hentry] at hold
        exact absurd hold (by simp)
  | busy hentry hvalue =>
      exact h.keep hn hreq fun id hid => absurd hid (by simp [Thread.looked, Thread.filling])
  | hit hentry hvalue hst =>
      refine h.keep hn hreq fun id hid => ?_
      exact absurd ((filling_readDone t _).symm.trans hid) (by simp)
  | @old id f hentry hvalue hst =>
      refine hbegin _ _ hentry (if_pos rfl) (fun _ _ => rfl) (fun j hj => if_neg hj) ?_ ?_
      · intro m u hu hid
        have hnone := (h.holds m u id hu hid).2
        exact absurd (hnone.symm.trans hvalue) (by simp)
      · intro m u j hu hj hkey
        obtain ⟨hold, hnone⟩ := h.holds m u j hu hj
        rw [hkey, hentry] at hold
        obtain rfl := Option.some.inj hold
        exact absurd (hnone.symm.trans hvalue) (by simp)

/-- A request comes. -/
theorem Entries.start (h : Entries c threads) (req : Request) :
    Entries c (threads ++ [req.begin]) := by
  have hnone : req.begin.filling = none := by cases req <;> rfl
  have hold : ∀ (m : Nat) (u : Thread) (id : Nat), (threads ++ [req.begin])[m]? = some u →
      u.filling = some id → threads[m]? = some u := by
    intro m u id hu hid
    rcases threads_append hu with ⟨-, hu⟩ | ⟨-, rfl⟩
    · exact hu
    · exact absurd (hnone.symm.trans hid) (by simp)
  refine ⟨?_, ?_, ?_⟩
  · intro m u id hu hid
    exact h.holds m u id (hold m u id hu hid) hid
  · intro m k u v id hu hv hid hid'
    exact h.sole m k u v id (hold m u id hu hid) (hold k v id hv hid') hid hid'
  · intro key id hkey
    obtain ⟨u, hu, hreq⟩ := h.keys key id hkey
    exact ⟨u, List.mem_append_left _ hu, hreq⟩

end Filling

/-! ## What may be delivered later -/

/-- A value for a key, with its `stat` data and its version: in the cache, or in the hands of a
read. -/
def View (h : Hist) (c : Cache) (threads : List Thread) (key : Bytes) (st : Stat) (v : Nat) :
    Prop :=
  h.cached c key = some (st, v) ∨
    ∃ (m : Nat) (u : Thread), threads[m]? = some u ∧ u.req.key = key ∧ h.reading m u = some (st, v)

/-- What a read has in its own hands is not older than what it began with. -/
def Own (h : Hist) (n : Nat) (t : Thread) : Prop :=
  match t.pc with
  | .read _ _ i _ | .fstat _ i _ => h.since n ≤ h.ver i
  | .fill _ (.ok _) => h.since n ≤ h.got n
  | _ => True

/-- No value may be delivered that is too old: not to a read that comes and sees the file as it is,
not to one that has seen it already, and not to the one that has the value in its hands. -/
structure Views (su : Setup) (d : Disk) (h : Hist) (c : Cache) (threads : List Thread) : Prop where
  current : ∀ key st v, View h c threads key st v → d.statAt (nfsPath su.cfg key) = some st →
    h.settled key ≤ v
  awaited : ∀ key st v, View h c threads key st v → ∀ (m : Nat) (u : Thread),
    threads[m]? = some u → u.req.key = key → ¬ Awaited h m u st v
  own : ∀ (m : Nat) (u : Thread), threads[m]? = some u → Own h m u

section Deliverable

variable {threads : List Thread} {n : Nat} {t t' : Thread} {d d' : Disk} {i : Nat} {h h' : Hist}
  {c c' : Cache}

/-- A thread that does not read has nothing to deliver. -/
theorem not_reads (hr : ¬ t.Reads) (h : Hist) (n : Nat) :
    t.filling = none ∧ h.reading n t = none ∧ (∀ st v, ¬ Awaited h n t st v) ∧ Own h n t := by
  unfold Thread.Reads at hr
  unfold Thread.filling Hist.reading Awaited Own
  cases hpc : t.pc <;> simp_all

/-- A change of the disk by a thread that does not read. The values of its file are in order behind
it, by `SafeStep`; those of other files stay so. -/
theorem Views.change (hv : Views su d h c threads) (hw : Writers su d threads)
    (he : Entries c threads) (hcounts : Counts su d h threads) (hn : threads[n]? = some t)
    (hr' : ¬ t'.Reads) (ht : Touch su d d' t t' i)
    (hsafe : ∀ m < threads.length, ∀ u ∈ threads[m]?, su.path u = su.path t →
      Current su d' (h.change su d d' n t) u.req.key ((h.change su d d' n t).cached c u.req.key) ∧
        Current su d' (h.change su d d' n t) u.req.key ((h.change su d d' n t).reading m u)) :
    Views su d' (h.change su d d' n t) c (threads.set n t') := by
  have hcached : ∀ key, (h.change su d d' n t).cached c key = h.cached c key := by
    intro key
    simp only [Hist.cached, fver_change]
  have hold : ∀ (m : Nat) (u : Thread), (threads.set n t')[m]? = some u → u.Reads →
      threads[m]? = some u := by
    intro m u hu hreads
    rcases threads_set hn hu with ⟨-, rfl⟩ | ⟨-, hu⟩
    · exact absurd hreads hr'
    · exact hu
  -- a read has its value from a version that may be newer now
  have hreading : ∀ (m : Nat) (u : Thread) (st : Stat) (v : Nat),
      (threads.set n t')[m]? = some u → (h.change su d d' n t).reading m u = some (st, v) →
      threads[m]? = some u ∧ ∃ w ≤ v, h.reading m u = some (st, w) := by
    intro m u st v hu huv
    have hreads : u.Reads := by
      by_contra hno
      exact absurd ((not_reads hno _ m).2.1.symm.trans huv) (by simp)
    refine ⟨hold m u hu hreads, ?_⟩
    unfold Hist.reading at huv ⊢
    split at huv
    · rename_i st' id j trys hpc
      obtain ⟨rfl, rfl⟩ : st' = st ∧ (h.change su d d' n t).ver j = v := by simpa using huv
      exact ⟨h.ver j, ver_le_change hcounts.ver_le n j, rfl⟩
    · rename_i id f hpc
      rw [got_change] at huv
      exact ⟨v, le_refl _, huv⟩
    · exact absurd huv (by simp)
  have hview : ∀ key st v, View (h.change su d d' n t) c (threads.set n t') key st v →
      ∃ w ≤ v, View h c threads key st w := by
    rintro key st v (hc | ⟨m, u, hu, hkey, huv⟩)
    · exact ⟨v, le_refl _, Or.inl (hcached key ▸ hc)⟩
    · obtain ⟨hu', w, hle, hw⟩ := hreading m u st v hu huv
      exact ⟨w, hle, Or.inr ⟨m, u, hu', hkey, hw⟩⟩
  have hstat : ∀ q, q ≠ su.path t → d'.statAt q = d.statAt q := by
    intro q hq
    unfold Disk.statAt Disk.fileAt
    rw [ht.names q hq]
    cases hname : d.names q with
    | none => rfl
    | some node =>
        cases node with
        | file j =>
            have hne : j ≠ i := fun heq => hw.other hn ht q hq (heq ▸ hname)
            simp only [ht.inodes j hne]
        | dir => rfl
        | special => rfl
  refine ⟨?_, ?_, ?_⟩
  · intro key st v hkv hst
    by_cases hp : nfsPath su.cfg key = su.path t
    · rcases hkv with hc | ⟨m, u, hu, rfl, huv⟩
      · -- only keys of requests are in the cache
        have hentry : ∃ id, c.entry key = some id := by
          obtain ⟨id, hid, -⟩ := Option.bind_eq_some_iff.mp hc
          exact ⟨id, hid⟩
        obtain ⟨id, hid⟩ := hentry
        obtain ⟨u, hu, rfl⟩ := he.keys key id hid
        obtain ⟨m, hm⟩ := List.mem_iff_getElem?.mp hu
        exact (hsafe m (List.getElem?_eq_some_iff.mp hm).1 u hm hp).1 (st, v) hc hst
      · obtain ⟨hu', -⟩ := hreading m u st v hu huv
        exact (hsafe m (List.getElem?_eq_some_iff.mp hu').1 u hu' hp).2 (st, v) huv hst
    · obtain ⟨w, hle, hw⟩ := hview key st v hkv
      rw [settled_change_of h n (Or.inl hp)]
      rw [hstat _ hp] at hst
      exact le_trans (hv.current key st w hw hst) hle
  · intro key st v hkv m u hu hkey haw
    obtain ⟨w, hle, hw⟩ := hview key st v hkv
    obtain ⟨hpc, hlt⟩ := haw
    rw [since_change] at hlt
    have hreads : u.Reads := by
      rcases hpc with hpc | hpc <;> simp [Thread.Reads, hpc]
    exact hv.awaited key st w hw m u (hold m u hu hreads) hkey ⟨hpc, lt_of_le_of_lt hle hlt⟩
  · intro m u hu
    by_cases hreads : u.Reads
    · have hown := hv.own m u (hold m u hu hreads)
      unfold Own at hown ⊢
      rw [since_change]
      split at hown
      · exact le_trans hown (ver_le_change hcounts.ver_le n _)
      · exact le_trans hown (ver_le_change hcounts.ver_le n _)
      · rw [got_change]
        exact hown
      · trivial
    · exact (not_reads hreads _ m).2.2.2

/-- A value for the key of thread `n` that may be delivered. -/
def Deliverable (su : Setup) (d : Disk) (h : Hist) (threads : List Thread) (key : Bytes) (st : Stat)
    (v : Nat) : Prop :=
  (d.statAt (nfsPath su.cfg key) = some st → h.settled key ≤ v) ∧
    ∀ (m : Nat) (u : Thread), threads[m]? = some u → u.req.key = key → ¬ Awaited h m u st v

/-- What is in sight may be delivered. -/
theorem Views.deliverable (hv : Views su d h c threads) {key : Bytes} {st : Stat} {v : Nat}
    (hview : View h c threads key st v) : Deliverable su d h threads key st v :=
  ⟨hv.current key st v hview, hv.awaited key st v hview⟩

/-- What the file is now may be delivered. -/
theorem Counts.deliverable (hc : Counts su d h threads) {key : Bytes} {v : Nat} (st : Stat)
    (hvis : h.vis d (nfsPath su.cfg key) ≤ v) : Deliverable su d h threads key st v := by
  have hsettled := hc.settled_le key
  refine ⟨fun _ => le_trans hsettled hvis, ?_⟩
  rintro m u hu rfl ⟨-, hlt⟩
  have hsince := hc.since_le m u hu
  have hacked := hc.acked_le u.req.key
  unfold Setup.path at hsince
  omega

/-- **A step that leaves the disk alone.** A value that comes into the cache was in the hands of the
read, and one that comes into its hands may be delivered. -/
theorem Views.step (hv : Views su d h c threads) (hn : threads[n]? = some t)
    (hreq : t'.req = t.req) (hver : h'.ver = h.ver) (hsince : h'.since = h.since)
    (hsettled : h'.settled = h.settled) (hgot : ∀ m, m ≠ n → h'.got m = h.got m)
    (hcached : ∀ key, h'.cached c' key = h.cached c key ∨ h'.cached c' key = none ∨
      key = t.req.key ∧ h'.cached c' key = h.reading n t)
    (hreading : ∀ st v, h'.reading n t' = some (st, v) →
      Deliverable su d h threads t.req.key st v)
    (haw : ∀ st v, View h c threads t.req.key st v → ¬ Awaited h n t' st v)
    (hown : Own h' n t') : Views su d h' c' (threads.set n t') := by
  have hothers : ∀ (m : Nat) (u : Thread), m ≠ n → h'.reading m u = h.reading m u := by
    intro m u hm
    unfold Hist.reading
    rw [hver, hgot m hm]
  have hview : ∀ key st v, View h' c' (threads.set n t') key st v →
      View h c threads key st v ∨
        key = t.req.key ∧ h'.reading n t' = some (st, v) := by
    rintro key st v (hc | ⟨m, u, hu, hkey, huv⟩)
    · rcases hcached key with heq | heq | ⟨rfl, heq⟩
      · exact Or.inl (Or.inl (heq ▸ hc))
      · exact absurd (heq.symm.trans hc) (by simp)
      · exact Or.inl (Or.inr ⟨n, t, hn, rfl, heq ▸ hc⟩)
    · rcases threads_set hn hu with ⟨rfl, rfl⟩ | ⟨hm, hu'⟩
      · exact Or.inr ⟨hkey.symm.trans (by rw [hreq]), huv⟩
      · rw [hothers m u hm] at huv
        exact Or.inl (Or.inr ⟨m, u, hu', hkey, huv⟩)
  have hdeliver : ∀ key st v, View h' c' (threads.set n t') key st v →
      Deliverable su d h threads key st v := by
    intro key st v hkv
    rcases hview key st v hkv with hold | ⟨rfl, hnew⟩
    · exact hv.deliverable hold
    · exact hreading st v hnew
  refine ⟨?_, ?_, ?_⟩
  · intro key st v hkv
    rw [hsettled]
    exact (hdeliver key st v hkv).1
  · intro key st v hkv m u hu hkey haw'
    have haw'' : Awaited h m u st v := by
      obtain ⟨hpc, hlt⟩ := haw'
      exact ⟨hpc, hsince ▸ hlt⟩
    rcases threads_set hn hu with ⟨rfl, rfl⟩ | ⟨-, hu'⟩
    · rw [hreq] at hkey
      subst hkey
      rcases hview _ st v hkv with hold | ⟨-, hnew⟩
      · exact haw st v hold haw''
      · -- a read that looks has nothing in its hands
        rcases haw''.1 with hpc | hpc <;> simp [Hist.reading, hpc] at hnew
    · exact (hdeliver key st v hkv).2 m u hu' hkey haw''
  · intro m u hu
    rcases threads_set hn hu with ⟨rfl, rfl⟩ | ⟨hm, hu'⟩
    · exact hown
    · have hold := hv.own m u hu'
      unfold Own at hold ⊢
      rw [hver, hsince, hgot m hm]
      exact hold

theorem cached_delete (h : Hist) (c : Cache) (id : Nat) (key : Bytes) :
    h.cached (c.delete id) key = h.cached c key ∨ h.cached (c.delete id) key = none := by
  by_cases hentry : c.entry key = some id
  · right
    have hnone : (c.delete id).entry key = none := if_pos hentry
    rw [Hist.cached, hnone]
    rfl
  · left
    have hsame : (c.delete id).entry key = c.entry key := if_neg hentry
    rw [Hist.cached, hsame]
    rfl

theorem cached_flush (h : Hist) (c : Cache) (key key' : Bytes) :
    h.cached (nfsFlush c key) key' = h.cached c key' ∨ h.cached (nfsFlush c key) key' = none := by
  unfold nfsFlush
  split
  · exact Or.inl rfl
  · exact cached_delete h c _ key'

theorem cached_flush_self (h : Hist) (c : Cache) (key : Bytes) :
    h.cached (nfsFlush c key) key = none := by
  unfold nfsFlush
  cases hentry : c.entry key with
  | none => simp [Hist.cached, hentry]
  | some id =>
      have hnone : (c.delete id).entry key = none := if_pos hentry
      simp only [Hist.cached, hnone]
      rfl

theorem cached_look {key : Bytes} {st : Stat} {l : Looked} (h : Hist)
    (hlook : LookCase c key st c' l) (key' : Bytes) :
    h.cached c' key' = h.cached c key' ∨ h.cached c' key' = none := by
  cases hlook with
  | miss hentry =>
      by_cases hkey : key' = key
      · right
        have hnew : (c.create key).entry key' = some c.next := if_pos hkey
        have hnone : (c.create key).value c.next = none := if_pos rfl
        simp [Hist.cached, hnew, hnone]
      · left
        have hsame : (c.create key).entry key' = c.entry key' := if_neg hkey
        unfold Hist.cached
        rw [hsame]
        cases hid : c.entry key' with
        | none => rfl
        | some id =>
            have hne : id ≠ c.next := Nat.ne_of_lt (c.below hid)
            have hval : (c.create key).value id = c.value id := if_neg hne
            simp only [Option.bind_some, hval]
  | busy hentry hvalue => exact Or.inl rfl
  | hit hentry hvalue hst => exact Or.inl rfl
  | @old id f hentry hvalue hst =>
      have hsame : (c.setValue id none).entry = c.entry := rfl
      by_cases hid : c.entry key' = some id
      · right
        have hnone : (c.setValue id none).value id = none := if_pos rfl
        simp [Hist.cached, hsame, hid, hnone]
      · left
        unfold Hist.cached
        rw [hsame]
        cases hentry' : c.entry key' with
        | none => rfl
        | some j =>
            have hne : j ≠ id := fun heq => hid (heq ▸ hentry')
            have hval : (c.setValue id none).value j = c.value j := if_neg hne
            simp only [Option.bind_some, hval]

/-- What a fill puts into the cache is what the read had in its hands. -/
theorem cached_store (h : Hist) {id : Nat} {result : Except Int Cached}
    (hpc : t.pc = .fill id result)
    (hentry : c.entry t.req.key = some id) (key : Bytes) :
    Hist.cached { h with fver := Function.update h.fver id (h.got n) }
        (store c id (fillValue result)) key = h.cached c key ∨
      Hist.cached { h with fver := Function.update h.fver id (h.got n) }
        (store c id (fillValue result)) key = none ∨
      key = t.req.key ∧ Hist.cached { h with fver := Function.update h.fver id (h.got n) }
        (store c id (fillValue result)) key = h.reading n t := by
  have hother : c.entry key ≠ some id →
      Hist.cached { h with fver := Function.update h.fver id (h.got n) } c key =
        h.cached c key := by
    intro hne
    unfold Hist.cached
    cases hid : c.entry key with
    | none => rfl
    | some j =>
        have hj : j ≠ id := fun heq => hne (heq ▸ hid)
        simp only [Option.bind_some, Function.update_of_ne hj]
  cases result with
  | error err =>
      rcases cached_delete { h with fver := Function.update h.fver id (h.got n) } c id key with
        heq | heq
      · by_cases hid : c.entry key = some id
        · right
          left
          have hnone : (c.delete id).entry key = none := if_pos hid
          show Hist.cached _ (c.delete id) key = none
          rw [Hist.cached, hnone]
          rfl
        · exact Or.inl (heq.trans (hother hid))
      · exact Or.inr (Or.inl heq)
  | ok f =>
      by_cases hid : c.entry key = some id
      · right
        right
        refine ⟨c.one hid hentry, ?_⟩
        have hval : (c.setValue id (some f)).value id = some f := if_pos rfl
        have hsame : (c.setValue id (some f)).entry = c.entry := rfl
        show Hist.cached _ (c.setValue id (some f)) key = h.reading n t
        unfold Hist.cached Hist.reading
        rw [hpc, hsame, hid, Option.bind_some, hval]
        simp only [Option.map_some, Function.update_self]
      · left
        rw [← hother hid]
        have hsame : (c.setValue id (some f)).entry = c.entry := rfl
        show Hist.cached _ (c.setValue id (some f)) key = Hist.cached _ c key
        unfold Hist.cached
        rw [hsame]
        cases hentry' : c.entry key with
        | none => rfl
        | some j =>
            have hne : j ≠ id := fun heq => hid (heq ▸ hentry')
            have hval : (c.setValue id (some f)).value j = c.value j := if_neg hne
            simp only [Option.bind_some, hval]

/-- A flush: no value of the key is left, so its changes may settle. -/
theorem Views.flush (hv : Views su d h c threads) (he : Entries c threads)
    (hn : threads[n]? = some t) (hr' : ¬ t'.Reads)
    (hsafe : ∀ id ∈ c.entry t.req.key, ∀ u ∈ threads, u.filling ≠ some id)
    (hver : h'.ver = h.ver) (hsince : h'.since = h.since) (hgot : h'.got = h.got)
    (hfver : h'.fver = h.fver)
    (hsettled : ∀ key, key ≠ t.req.key → h'.settled key = h.settled key) :
    Views su d h' (nfsFlush c t.req.key) (threads.set n t') := by
  have hcached : ∀ key, h'.cached (nfsFlush c t.req.key) key =
      h.cached (nfsFlush c t.req.key) key := by
    intro key
    simp only [Hist.cached, hfver]
  have hreading : ∀ (m : Nat) (u : Thread), h'.reading m u = h.reading m u := by
    intro m u
    simp only [Hist.reading, hver, hgot]
  have hold : ∀ (m : Nat) (u : Thread), (threads.set n t')[m]? = some u → u.Reads →
      threads[m]? = some u := by
    intro m u hu hreads
    rcases threads_set hn hu with ⟨-, rfl⟩ | ⟨-, hu⟩
    · exact absurd hreads hr'
    · exact hu
  have hreads : ∀ (m : Nat) (u : Thread) (x : Stat × Nat), h.reading m u = some x → u.Reads := by
    intro m u x hx
    by_contra hno
    exact absurd ((not_reads hno h m).2.1.symm.trans hx) (by simp)
  have hview : ∀ key st v, View h' (nfsFlush c t.req.key) (threads.set n t') key st v →
      View h c threads key st v ∧ key ≠ t.req.key := by
    rintro key st v (hc | ⟨m, u, hu, rfl, huv⟩)
    · rw [hcached] at hc
      refine ⟨?_, ?_⟩
      · rcases cached_flush h c t.req.key key with heq | heq
        · exact Or.inl (heq ▸ hc)
        · exact absurd (heq.symm.trans hc) (by simp)
      · rintro rfl
        exact absurd ((cached_flush_self h c _).symm.trans hc) (by simp)
    · rw [hreading] at huv
      have hu' := hold m u hu (hreads m u _ huv)
      refine ⟨Or.inr ⟨m, u, hu', rfl, huv⟩, fun hkey => ?_⟩
      -- a read of the key would have its entry
      obtain ⟨id, hid⟩ : ∃ id, u.filling = some id := by
        unfold Hist.reading at huv
        unfold Thread.filling
        split at huv
        · rename_i hpc
          exact ⟨_, by rw [hpc]⟩
        · rename_i hpc
          exact ⟨_, by rw [hpc]⟩
        · exact absurd huv (by simp)
      have hentry := (he.holds m u id hu' hid).1
      rw [hkey] at hentry
      exact hsafe id hentry u (List.mem_of_getElem? hu') hid
  refine ⟨?_, ?_, ?_⟩
  · intro key st v hkv
    obtain ⟨hold', hne⟩ := hview key st v hkv
    rw [hsettled key hne]
    exact hv.current key st v hold'
  · intro key st v hkv m u hu hkey haw
    obtain ⟨hpc, hlt⟩ := haw
    have hreads' : u.Reads := by
      rcases hpc with hpc | hpc <;> simp [Thread.Reads, hpc]
    exact hv.awaited key st v (hview key st v hkv).1 m u (hold m u hu hreads') hkey
      ⟨hpc, hsince ▸ hlt⟩
  · intro m u hu
    by_cases hreads' : u.Reads
    · have hown := hv.own m u (hold m u hu hreads')
      unfold Own at hown ⊢
      rw [hver, hsince, hgot]
      exact hown
    · exact (not_reads hreads' _ m).2.2.2

/-- An entry goes from the cache. -/
theorem Views.delete (hv : Views su d h c threads) (id : Nat) :
    Views su d h (c.delete id) threads := by
  have hview : ∀ key st v, View h (c.delete id) threads key st v → View h c threads key st v := by
    rintro key st v (hc | hr)
    · rcases cached_delete h c id key with heq | heq
      · exact Or.inl (heq ▸ hc)
      · exact absurd (heq.symm.trans hc) (by simp)
    · exact Or.inr hr
  exact ⟨fun key st v hkv => hv.current key st v (hview key st v hkv),
    fun key st v hkv => hv.awaited key st v (hview key st v hkv), hv.own⟩

/-- A request comes. -/
theorem Views.start (hv : Views su d h c threads) (req : Request) :
    Views su d (h.begin threads.length (nfsPath su.cfg req.key)) c (threads ++ [req.begin]) := by
  have hr : ¬ req.begin.Reads := by
    cases req <;> exact fun h => h
  have hold : ∀ (m : Nat) (u : Thread), (threads ++ [req.begin])[m]? = some u → u.Reads →
      m ≠ threads.length ∧ threads[m]? = some u := by
    intro m u hu hreads
    rcases threads_append hu with ⟨hlt, hu⟩ | ⟨-, rfl⟩
    · exact ⟨by omega, hu⟩
    · exact absurd hreads hr
  have hview : ∀ key st v, View (h.begin threads.length (nfsPath su.cfg req.key)) c
      (threads ++ [req.begin]) key st v → View h c threads key st v := by
    rintro key st v (hc | ⟨m, u, hu, hkey, huv⟩)
    · exact Or.inl hc
    · have hreads : u.Reads := by
        by_contra hno
        exact absurd ((not_reads hno _ m).2.1.symm.trans huv) (by simp)
      exact Or.inr ⟨m, u, (hold m u hu hreads).2, hkey, huv⟩
  refine ⟨fun key st v hkv => hv.current key st v (hview key st v hkv), ?_, ?_⟩
  · intro key st v hkv m u hu hkey haw
    obtain ⟨hpc, hlt⟩ := haw
    have hreads : u.Reads := by
      rcases hpc with hpc | hpc <;> simp [Thread.Reads, hpc]
    obtain ⟨hm, hu'⟩ := hold m u hu hreads
    have hsince : (h.begin threads.length (nfsPath su.cfg req.key)).since m = h.since m :=
      Function.update_of_ne hm _ _
    exact hv.awaited key st v (hview key st v hkv) m u hu' hkey ⟨hpc, hsince ▸ hlt⟩
  · intro m u hu
    by_cases hreads : u.Reads
    · obtain ⟨hm, hu'⟩ := hold m u hu hreads
      have hown := hv.own m u hu'
      have hsince : (h.begin threads.length (nfsPath su.cfg req.key)).since m = h.since m :=
        Function.update_of_ne hm _ _
      unfold Own at hown ⊢
      rw [hsince]
      exact hown
    · exact (not_reads hreads _ m).2.2.2

end Deliverable

/-! ## Where contents come from -/

/-- The inode a read has open. -/
def Thread.opened (t : Thread) : Option Nat :=
  match t.pc with
  | .read _ _ i _ | .fstat _ i _ => some i
  | _ => none

/-- The bytes are a content the file has had as this version. -/
def Source (h : Hist) (p : Bytes) (version : Nat) (data : Bytes) : Prop :=
  ∃ i content, h.named p i ∧ h.had i version content ∧ data = strip content

/-- The history knows what the disk is, and where all values come from. -/
structure Recorded (su : Setup) (d : Disk) (h : Hist) (c : Cache) (threads : List Thread) :
    Prop where
  named : ∀ p i, d.names p = some (.file i) → h.named p i
  had : ∀ i, h.had i (h.ver i) (d.inodes i).content
  opened : ∀ (n : Nat) (t : Thread) (i : Nat), threads[n]? = some t → t.opened = some i →
    h.named (su.path t) i
  filled : ∀ (n : Nat) (t : Thread) (id : Nat) (f : Cached), threads[n]? = some t →
    t.pc = .fill id (.ok f) → Source h (su.path t) (h.got n) f.buf
  stored : ∀ key id f, c.entry key = some id → c.value id = some f →
    Source h (nfsPath su.cfg key) (h.fver id) f.buf

section Sources

variable {threads : List Thread} {n : Nat} {t t' : Thread} {d d' : Disk} {h h' : Hist}
  {c c' : Cache}

/-- What has been stays so. -/
theorem Source.record {p : Bytes} {version : Nat} {data : Bytes}
    (hs : Source h p version data) (hnamed : h'.named = h.named) (hhad : h'.had = h.had) :
    Source (h'.record d') p version data := by
  obtain ⟨i, content, hi, hc, hdata⟩ := hs
  exact ⟨i, content, Or.inl (hnamed ▸ hi), Or.inl (hhad ▸ hc), hdata⟩

/-- **A step of a thread.** What it opens is the file of its key, and what it has read and what it
puts into the cache are contents of the file. -/
theorem Recorded.step (hr : Recorded su d h c threads) (hn : threads[n]? = some t)
    (hreq : t'.req = t.req) (hnamed : h'.named = h.named) (hhad : h'.had = h.had)
    (hgot : ∀ m, m ≠ n → h'.got m = h.got m)
    (hopened : ∀ i, t'.opened = some i →
      t.opened = some i ∨ d.names (su.path t) = some (.file i))
    (hfilled : ∀ id f, t'.pc = .fill id (.ok f) → Source h (su.path t) (h'.got n) f.buf)
    (hstored : ∀ key id f, c'.entry key = some id → c'.value id = some f →
      Source h (nfsPath su.cfg key) (h'.fver id) f.buf) :
    Recorded su d' (h'.record d') c' (threads.set n t') := by
  have hpath := path_of_req su hreq
  refine ⟨fun p i hp => Or.inr hp, fun i => Or.inr ⟨rfl, rfl⟩, ?_, ?_, ?_⟩
  · intro m u i hu hi
    rcases threads_set hn hu with ⟨-, rfl⟩ | ⟨-, hu⟩
    · rw [hpath]
      rcases hopened i hi with hold | hname
      · exact Or.inl (hnamed ▸ hr.opened n t i hn hold)
      · exact Or.inl (hnamed ▸ hr.named _ i hname)
    · exact Or.inl (hnamed ▸ hr.opened m u i hu hi)
  · intro m u id f hu hpc
    rcases threads_set hn hu with ⟨rfl, rfl⟩ | ⟨hm, hu⟩
    · rw [hpath]
      exact (hfilled id f hpc).record hnamed hhad
    · show Source (h'.record d') (su.path u) (h'.got m) f.buf
      rw [hgot m hm]
      exact (hr.filled m u id f hu hpc).record hnamed hhad
  · intro key id f hentry hvalue
    exact (hstored key id f hentry hvalue).record hnamed hhad

/-- A thread that does not read has nothing open and fills nothing. -/
theorem not_reads_opened (hr : ¬ t.Reads) :
    (∀ i, t.opened ≠ some i) ∧ ∀ id f, t.pc ≠ .fill id (.ok f) := by
  unfold Thread.Reads at hr
  unfold Thread.opened
  cases hpc : t.pc <;> simp_all

/-- What the first section of a read leaves in the cache was there before. -/
theorem stored_look {key : Bytes} {st : Stat} {l : Looked} (hlook : LookCase c key st c' l)
    {key' : Bytes} {id : Nat} {f : Cached} (hentry : c'.entry key' = some id)
    (hvalue : c'.value id = some f) : c.entry key' = some id ∧ c.value id = some f := by
  cases hlook with
  | miss hnone =>
      have hval : (if id = c.next then none else c.value id) = some f := hvalue
      split_ifs at hval with hid
      have hent : (if key' = key then some c.next else c.entry key') = some id := hentry
      split_ifs at hent with hkey
      · exact absurd (Option.some.inj hent).symm hid
      · exact ⟨hent, hval⟩
  | busy hentry' hvalue' => exact ⟨hentry, hvalue⟩
  | hit hentry' hvalue' hst => exact ⟨hentry, hvalue⟩
  | @old j g hentry' hvalue' hst =>
      have hval : (if id = j then none else c.value id) = some f := hvalue
      split_ifs at hval
      exact ⟨hentry, hval⟩

/-- What is left in the cache without an entry was there before. -/
theorem stored_delete {id j : Nat} {key : Bytes} {f : Cached}
    (hentry : (c.delete id).entry key = some j) (hvalue : (c.delete id).value j = some f) :
    c.entry key = some j ∧ c.value j = some f := by
  have hent : (if c.entry key = some id then none else c.entry key) = some j := hentry
  split_ifs at hent
  exact ⟨hent, hvalue⟩

theorem stored_flush {key' : Bytes} {j : Nat} {key : Bytes} {f : Cached}
    (hentry : (nfsFlush c key').entry key = some j)
    (hvalue : (nfsFlush c key').value j = some f) : c.entry key = some j ∧ c.value j = some f := by
  unfold nfsFlush at hentry hvalue
  split at hentry
  · rename_i hnone
    simp only [hnone] at hvalue
    exact ⟨hentry, hvalue⟩
  · rename_i id hid
    simp only [hid] at hvalue
    exact stored_delete hentry hvalue

end Sources

/-! ## Runs -/

/-- The invariant of a run of safe steps. -/
structure CacheInv (su : Setup) (g : Traced) : Prop where
  writers : Writers su g.state.server.disk g.state.threads
  counts : Counts su g.state.server.disk g.hist g.state.threads
  entries : Entries g.state.server.cache g.state.threads
  views : Views su g.state.server.disk g.hist g.state.server.cache g.state.threads
  recorded : Recorded su g.state.server.disk g.hist g.state.server.cache g.state.threads
  coherent : g.Coherent

section Steps

variable {g : Traced} {n : Nat} {t t' : Thread} {io : Io} {s' : Server}

theorem Counts.record {d : Disk} {h : Hist} {threads : List Thread} (hc : Counts su d h threads)
    (d' : Disk) : Counts su d (h.record d') threads :=
  ⟨hc.ver_le, hc.gone_le, hc.settled_le, hc.acked_le, hc.since_le, hc.eff_vis, hc.eff_settled,
    hc.eff_new⟩

theorem Views.record {d : Disk} {h : Hist} {c : Cache} {threads : List Thread}
    (hv : Views su d h c threads) (d' : Disk) : Views su d (h.record d') c threads :=
  ⟨hv.current, hv.awaited, hv.own⟩

/-- **What a step delivers** is not older than what the read began with, and a content of the file.
-/
theorem CacheInv.delivers (h : CacheInv su g) (hn : g.state.threads[n]? = some t) {v : Nat}
    {data : Bytes} (hd : g.hist.delivers g.state.server.cache n t = some (v, data)) :
    g.hist.since n ≤ v ∧ Source g.hist (su.path t) v data := by
  have hhit : ∀ st, (t.pc = .look st ∨ t.pc = .wait st) →
      ((g.state.server.cache.entry t.req.key).bind fun id =>
        (g.state.server.cache.value id).bind fun f =>
          if f.st = st then some (g.hist.fver id, f.buf) else none) = some (v, data) →
      g.hist.since n ≤ v ∧ Source g.hist (su.path t) v data := by
    intro st hpc hd
    obtain ⟨id, hentry, hd⟩ := Option.bind_eq_some_iff.mp hd
    obtain ⟨f, hvalue, hd⟩ := Option.bind_eq_some_iff.mp hd
    split_ifs at hd with hst
    obtain ⟨rfl, rfl⟩ := Prod.mk.inj (Option.some.inj hd)
    have hview : View g.hist g.state.server.cache g.state.threads t.req.key st (g.hist.fver id) :=
      Or.inl (by rw [Hist.cached, hentry, Option.bind_some, hvalue, Option.map_some, hst])
    refine ⟨?_, h.recorded.stored _ id f hentry hvalue⟩
    by_contra hlt
    exact h.views.awaited _ st _ hview n t hn rfl ⟨hpc, by omega⟩
  unfold Hist.delivers at hd
  split at hd
  · rename_i st hpc
    exact hhit st (Or.inl hpc) hd
  · rename_i st hpc
    exact hhit st (Or.inr hpc) hd
  · rename_i id f hpc
    obtain ⟨rfl, rfl⟩ := Prod.mk.inj (Option.some.inj hd)
    refine ⟨?_, h.recorded.filled n t id f hn hpc⟩
    have hown := h.views.own n t hn
    rw [Own, hpc] at hown
    exact hown
  · exact absurd hd (by simp)

/-- No read stores into an entry that is not in the cache. -/
theorem CacheInv.not_strays (h : CacheInv su g) (hn : g.state.threads[n]? = some t) :
    strays g.state.server.cache t = false := by
  unfold strays
  cases hpc : t.pc with
  | fill id result =>
      have hentry := (h.entries.holds n t id hn (by rw [Thread.filling, hpc])).1
      simpa using hentry
  | _ => rfl

/-- What has been delivered stays so, and what is delivered now is in order. -/
theorem CacheInv.coherent_next (h : CacheInv su g) (hn : g.state.threads[n]? = some t) {d' : Disk}
    {h' : Hist} (hnamed : h'.named = g.hist.named) (hhad : h'.had = g.hist.had)
    (state : State) (hstray : state.stray = (g.state.stray || strays g.state.server.cache t)) :
    Traced.Coherent
      { state := state, hist := h'.record d'
        reads := g.reads ++ ((g.hist.delivers g.state.server.cache n t).map fun r =>
          ⟨su.path t, g.hist.since n, r.1, r.2⟩).toList } := by
  obtain ⟨hold, hreads⟩ := h.coherent
  refine ⟨?_, ?_⟩
  · show state.stray = false
    rw [hstray, hold, h.not_strays hn]
    rfl
  · intro r hr
    have hfresh : r.since ≤ r.version ∧ Source g.hist r.path r.version r.data := by
      rcases List.mem_append.mp hr with hr | hr
      · exact hreads r hr
      · obtain ⟨⟨v, data⟩, hd, rfl⟩ := Option.map_eq_some_iff.mp (Option.mem_toList.mp hr)
        exact h.delivers hn hd
    exact ⟨hfresh.1, hfresh.2.record hnamed hhad⟩

/-- The server and its history behind a step of thread `n`. -/
def Traced.moved (g : Traced) (su : Setup) (n : Nat) (t : Thread) (s' : Server) (t' : Thread) :
    Traced where
  state :=
    { server := s', threads := g.state.threads.set n t'
      stray := g.state.stray || strays g.state.server.cache t }
  hist := g.hist.move su g.state.server.disk s'.disk n t
  reads := g.reads ++ ((g.hist.delivers g.state.server.cache n t).map fun r =>
    ⟨su.path t, g.hist.since n, r.1, r.2⟩).toList

/-- A disk that stays the same has not changed. -/
@[simp] theorem change_self (h : Hist) (d : Disk) (n : Nat) (t : Thread) :
    h.change su d d n t = h := by
  unfold Hist.change
  rw [if_neg]
  simp [Disk.differs]

/-- **The steps of a write** and of an `unlink`, but for the flush. -/
theorem CacheInv.write (h : CacheInv su g) (hn : g.state.threads[n]? = some t) (hat : t.AtWrite)
    (hsafe : SafeStep su g.state g.hist n t io)
    (hadv : advance su g.state.server t io = some (s', t')) :
    CacheInv su (g.moved su n t s' t') := by
  obtain ⟨⟨i, ht⟩, hcache, hreq, hr'⟩ := writes_of_advance h.writers hn hat hadv
  have hmove : g.hist.move su g.state.server.disk s'.disk n t =
      (g.hist.change su g.state.server.disk s'.disk n t).record s'.disk := by
    unfold Thread.AtWrite at hat
    unfold Hist.move
    cases hpc : t.pc <;> simp_all
  have hvalues : ∀ m < g.state.threads.length, ∀ u ∈ g.state.threads[m]?, su.path u = su.path t →
      Current su s'.disk (g.hist.change su g.state.server.disk s'.disk n t) u.req.key
          ((g.hist.change su g.state.server.disk s'.disk n t).cached g.state.server.cache
            u.req.key) ∧
        Current su s'.disk (g.hist.change su g.state.server.disk s'.disk n t) u.req.key
          ((g.hist.change su g.state.server.disk s'.disk n t).reading m u) := by
    unfold Thread.AtWrite at hat
    unfold SafeStep at hsafe
    cases hpc : t.pc <;> simp only [hpc] at hat hsafe
    all_goals exact hsafe (s', t') hadv
  have hfilling := (not_reads hr' g.hist n).1
  have hviews := h.views.change h.writers h.entries h.counts hn hr' ht hvalues
  refine ⟨h.writers.touch hn hreq ht, ?_, ?_, ?_, ?_, ?_⟩
  · show Counts su s'.disk (g.hist.move su _ s'.disk n t) (g.state.threads.set n t')
    rw [hmove]
    exact (h.counts.change hn hreq ht.names).record _
  · show Entries s'.cache (g.state.threads.set n t')
    rw [hcache]
    exact h.entries.keep hn hreq fun id hid => absurd (hfilling.symm.trans hid) (by simp)
  · show Views su s'.disk (g.hist.move su _ s'.disk n t) s'.cache (g.state.threads.set n t')
    rw [hmove, hcache]
    exact hviews.record _
  · show Recorded su s'.disk (g.hist.move su _ s'.disk n t) s'.cache (g.state.threads.set n t')
    rw [hmove, hcache]
    refine h.recorded.step hn hreq (named_change _ _) (had_change _ _) (fun m _ => by simp) ?_ ?_ ?_
    · exact fun i hi => absurd hi ((not_reads_opened hr').1 i)
    · exact fun id f hpc => absurd hpc ((not_reads_opened hr').2 id f)
    · intro key id f hentry hvalue
      rw [fver_change]
      exact h.recorded.stored key id f hentry hvalue
  · show Traced.Coherent ⟨_, g.hist.move su _ s'.disk n t, _⟩
    rw [hmove]
    exact h.coherent_next hn (named_change _ _) (had_change _ _) _ rfl

/-- **A step that leaves the disk alone.** -/
theorem CacheInv.quiet (h : CacheInv su g) (hn : g.state.threads[n]? = some t)
    (hreq : t'.req = t.req) (hheld : t'.held = none) {c' : Cache} {fver got : Nat → Nat}
    (hmove : g.hist.move su g.state.server.disk g.state.server.disk n t =
      Hist.record { g.hist with fver := fver, got := got } g.state.server.disk)
    (hentries : Entries c' (g.state.threads.set n t'))
    (hgot : ∀ m, m ≠ n → got m = g.hist.got m)
    (hcached : ∀ key, Hist.cached { g.hist with fver := fver, got := got } c' key =
        g.hist.cached g.state.server.cache key ∨
      Hist.cached { g.hist with fver := fver, got := got } c' key = none ∨
      key = t.req.key ∧ Hist.cached { g.hist with fver := fver, got := got } c' key =
        g.hist.reading n t)
    (hreading : ∀ st v, Hist.reading { g.hist with fver := fver, got := got } n t' = some (st, v) →
      Deliverable su g.state.server.disk g.hist g.state.threads t.req.key st v)
    (haw : ∀ st v, View g.hist g.state.server.cache g.state.threads t.req.key st v →
      ¬ Awaited g.hist n t' st v)
    (hown : Own { g.hist with fver := fver, got := got } n t')
    (hopened : ∀ i, t'.opened = some i →
      t.opened = some i ∨ g.state.server.disk.names (su.path t) = some (.file i))
    (hfilled : ∀ id f, t'.pc = .fill id (.ok f) → Source g.hist (su.path t) (got n) f.buf)
    (hstored : ∀ key id f, c'.entry key = some id → c'.value id = some f →
      Source g.hist (nfsPath su.cfg key) (fver id) f.buf) :
    CacheInv su (g.moved su n t ⟨g.state.server.disk, c'⟩ t') := by
  have hcounts : Counts su g.state.server.disk { g.hist with fver := fver, got := got }
      (g.state.threads.set n t') := h.counts.congr hn hreq rfl rfl rfl rfl rfl rfl rfl
  have hviews : Views su g.state.server.disk { g.hist with fver := fver, got := got } c'
      (g.state.threads.set n t') :=
    h.views.step hn hreq rfl rfl rfl hgot hcached hreading haw hown
  refine ⟨h.writers.keep hn hheld, ?_, hentries, ?_, ?_, ?_⟩
  · show Counts su g.state.server.disk (g.hist.move su _ g.state.server.disk n t)
      (g.state.threads.set n t')
    rw [hmove]
    exact hcounts.record _
  · show Views su g.state.server.disk (g.hist.move su _ g.state.server.disk n t) c'
      (g.state.threads.set n t')
    rw [hmove]
    exact hviews.record _
  · show Recorded su g.state.server.disk (g.hist.move su _ g.state.server.disk n t) c'
      (g.state.threads.set n t')
    rw [hmove]
    exact h.recorded.step hn hreq rfl rfl hgot hopened hfilled hstored
  · show Traced.Coherent ⟨_, g.hist.move su _ g.state.server.disk n t, _⟩
    rw [hmove]
    exact h.coherent_next hn rfl rfl _ rfl

/-- A step behind which the thread does not read. -/
theorem CacheInv.leave (h : CacheInv su g) (hn : g.state.threads[n]? = some t)
    (hreq : t'.req = t.req) (hheld : t'.held = none) (hr' : ¬ t'.Reads) {c' : Cache}
    {fver : Nat → Nat}
    (hmove : g.hist.move su g.state.server.disk g.state.server.disk n t =
      Hist.record { g.hist with fver := fver } g.state.server.disk)
    (hentries : Entries c' (g.state.threads.set n t'))
    (hcached : ∀ key, Hist.cached { g.hist with fver := fver } c' key =
        g.hist.cached g.state.server.cache key ∨
      Hist.cached { g.hist with fver := fver } c' key = none ∨
      key = t.req.key ∧ Hist.cached { g.hist with fver := fver } c' key = g.hist.reading n t)
    (hstored : ∀ key id f, c'.entry key = some id → c'.value id = some f →
      Source g.hist (nfsPath su.cfg key) (fver id) f.buf) :
    CacheInv su (g.moved su n t ⟨g.state.server.disk, c'⟩ t') := by
  have hnone := not_reads hr' { g.hist with fver := fver } n
  have hopen := not_reads_opened hr'
  refine h.quiet hn hreq hheld hmove hentries (fun _ _ => rfl) hcached ?_ ?_ hnone.2.2.2 ?_ ?_
    hstored
  · exact fun st v heq => absurd (hnone.2.1.symm.trans heq) (by simp)
  · exact fun st v _ => (not_reads hr' g.hist n).2.2.1 st v
  · exact fun i hi => absurd hi (hopen.1 i)
  · exact fun id f hpc => absurd hpc (hopen.2 id f)

/-- A thread that returns from `NfsReadFile` does not read or write. -/
theorem readDone_idle (t : Thread) (result : Except Int Bytes) :
    ¬ (t.readDone result).Reads ∧ (t.readDone result).held = none := by
  unfold Thread.readDone
  split <;> exact ⟨fun h => h, rfl⟩

/-- Nor does one that has edited the text of a board: it is about to open it, or returns. -/
theorem edited_idle (su : Setup) (t : Thread) (e : Cb.Edit) (result : Except Int Bytes)
    (now : Int) :
    (t.edited su e result now).req = t.req ∧ ¬ (t.edited su e result now).Reads ∧
      (t.edited su e result now).held = none := by
  have hproceed : ∀ ds, (t.proceed su e now ds).req = t.req ∧ ¬ (t.proceed su e now ds).Reads ∧
      (t.proceed su e now ds).held = none := by
    intro ds
    unfold Thread.proceed
    split <;> exact ⟨rfl, fun h => h, rfl⟩
  unfold Thread.edited
  split
  · exact hproceed _
  · split_ifs
    · exact hproceed _
    · exact ⟨rfl, fun h => h, rfl⟩

/-- What a thread began with is not newer than what can be seen. -/
theorem CacheInv.since_le (h : CacheInv su g) (hn : g.state.threads[n]? = some t) :
    g.hist.since n ≤ g.hist.settled t.req.key ∧
      g.hist.since n ≤ g.hist.vis g.state.server.disk (su.path t) := by
  have hsince := h.counts.since_le n t hn
  have hacked := h.counts.acked_le t.req.key
  have hsettled := h.counts.settled_le t.req.key
  unfold Setup.path at hsince ⊢
  omega

/-- The `stat` of a read. -/
theorem CacheInv.stat (h : CacheInv su g) (hn : g.state.threads[n]? = some t) (hpc : t.pc = .stat)
    (hadv : advance su g.state.server t io = some (s', t')) :
    CacheInv su (g.moved su n t s' t') := by
  have hmove : g.hist.move su g.state.server.disk g.state.server.disk n t =
      Hist.record g.hist g.state.server.disk := by simp [Hist.move, hpc]
  have hdone : ∀ err, CacheInv su (g.moved su n t g.state.server (t.readDone (.error err))) := by
    intro err
    obtain ⟨hr', hheld⟩ := readDone_idle t (.error err)
    have hreq := req_readDone t (.error err)
    refine h.leave hn hreq hheld hr' hmove ?_ (fun key => Or.inl rfl) h.recorded.stored
    exact h.entries.keep hn hreq fun id hid =>
      absurd ((filling_readDone t _).symm.trans hid) (by simp)
  rw [advance, hpc] at hadv
  obtain ⟨rfl, rfl⟩ := Prod.mk.inj (Option.some.inj hadv)
  cases hfailed : io.failed with
  | some errno => exact hdone errno
  | none =>
      cases hstat : g.state.server.disk.statFile (su.path t) with
      | error err => exact hdone err
      | ok st =>
          have hst : g.state.server.disk.statAt (su.path t) = some st := by
            unfold Disk.statFile at hstat
            unfold Disk.statAt Disk.fileAt
            split at hstat <;> simp_all
          have hreq : (t.goto (.look st)).req = t.req := rfl
          refine h.quiet hn hreq rfl hmove ?_ (fun _ _ => rfl) (fun key => Or.inl rfl) ?_ ?_ trivial
            ?_ ?_ h.recorded.stored
          · exact h.entries.keep hn hreq fun id hid => absurd hid (by simp [Thread.filling])
          · exact fun st' v heq => absurd heq (by simp [Hist.reading])
          · -- what this read sees now is not older than what has settled
            rintro st' v hview ⟨heq, hlt⟩
            obtain rfl : st = st' := by simpa using heq
            have hsettled := h.views.current _ st v hview hst
            have hsince := (h.since_le hn).1
            omega
          · exact fun i hi => absurd hi (by simp [Thread.opened])
          · exact fun id f heq => absurd heq (by simp)

/-- The first section under the lock of the cache. -/
theorem CacheInv.look (h : CacheInv su g) (hn : g.state.threads[n]? = some t) {st : Stat}
    (hpc : t.pc = .look st ∨ t.pc = .wait st) {c' : Cache} {l : Looked}
    (hlook : LookCase g.state.server.cache t.req.key st c' l) :
    CacheInv su (g.moved su n t ⟨g.state.server.disk, c'⟩ (t.looked st l)) := by
  have hmove : g.hist.move su g.state.server.disk g.state.server.disk n t =
      Hist.record g.hist g.state.server.disk := by
    rcases hpc with hpc | hpc <;> simp [Hist.move, hpc]
  have hreq := req_looked t st l
  have hentries := h.entries.look hn hlook
  have hcached : ∀ key, g.hist.cached c' key = g.hist.cached g.state.server.cache key ∨
      g.hist.cached c' key = none ∨
        key = t.req.key ∧ g.hist.cached c' key = g.hist.reading n t := by
    intro key
    rcases cached_look g.hist hlook key with heq | heq
    · exact Or.inl heq
    · exact Or.inr (Or.inl heq)
  have hstored : ∀ key id f, c'.entry key = some id → c'.value id = some f →
      Source g.hist (nfsPath su.cfg key) (g.hist.fver id) f.buf := by
    intro key id f hentry hvalue
    obtain ⟨hentry, hvalue⟩ := stored_look hlook hentry hvalue
    exact h.recorded.stored key id f hentry hvalue
  cases l with
  | hit f =>
      obtain ⟨hr', hheld⟩ := readDone_idle t (.ok f.buf)
      exact h.leave hn hreq hheld hr' hmove hentries hcached hstored
  | fill id =>
      refine h.quiet hn hreq rfl hmove hentries (fun _ _ => rfl) hcached ?_ ?_ trivial ?_ ?_ hstored
      · exact fun st' v heq => absurd heq (by simp [Hist.reading, Thread.looked])
      · rintro st' v - ⟨heq, -⟩
        simp [Thread.looked] at heq
      · exact fun i hi => absurd hi (by simp [Thread.opened, Thread.looked])
      · exact fun id' f heq => absurd heq (by simp [Thread.looked])
  | wait =>
      refine h.quiet hn hreq rfl hmove hentries (fun _ _ => rfl) hcached ?_ ?_ trivial ?_ ?_ hstored
      · exact fun st' v heq => absurd heq (by simp [Hist.reading, Thread.looked])
      · rintro st' v hview ⟨heq, hlt⟩
        obtain rfl : st = st' := by simpa [Thread.looked] using heq
        exact h.views.awaited _ st v hview n t hn rfl ⟨hpc, hlt⟩
      · exact fun i hi => absurd hi (by simp [Thread.opened, Thread.looked])
      · exact fun id' f heq => absurd heq (by simp [Thread.looked])

/-- A read that has an entry gets an error. -/
theorem CacheInv.fail (h : CacheInv su g) (hn : g.state.threads[n]? = some t) {id : Nat}
    (hid : t.filling = some id) {got : Nat → Nat} (hgot : ∀ m, m ≠ n → got m = g.hist.got m)
    (hmove : g.hist.move su g.state.server.disk g.state.server.disk n t =
      Hist.record { g.hist with got := got } g.state.server.disk) (err : Int) :
    CacheInv su (g.moved su n t g.state.server (t.goto (.fill id (.error err)))) := by
  have hreq : (t.goto (.fill id (.error err))).req = t.req := rfl
  refine h.quiet hn hreq rfl hmove ?_ hgot (fun key => Or.inl rfl) ?_ ?_ trivial ?_ ?_
    h.recorded.stored
  · exact h.entries.keep hn hreq fun j hj => hid.trans hj
  · exact fun st v heq => absurd heq (by simp [Hist.reading])
  · rintro st v - ⟨heq, -⟩
    simp at heq
  · exact fun i hi => absurd hi (by simp [Thread.opened])
  · exact fun j f heq => absurd heq (by simp)

/-- The open of a read. -/
theorem CacheInv.openRead (h : CacheInv su g) (hn : g.state.threads[n]? = some t) {st : Stat}
    {id : Nat} (hpc : t.pc = .openRead st id)
    (hadv : advance su g.state.server t io = some (s', t')) :
    CacheInv su (g.moved su n t s' t') := by
  have hmove : g.hist.move su g.state.server.disk g.state.server.disk n t =
      Hist.record g.hist g.state.server.disk := by simp [Hist.move, hpc]
  have hid : t.filling = some id := by rw [Thread.filling, hpc]
  have hfail := h.fail hn hid (fun _ _ => rfl) hmove
  rw [advance, hpc] at hadv
  obtain ⟨rfl, rfl⟩ := Prod.mk.inj (Option.some.inj hadv)
  cases hfailed : io.failed with
  | some errno => exact hfail errno
  | none =>
      cases hname : g.state.server.disk.names (su.path t) with
      | none => exact hfail enoent
      | some node =>
          cases node with
          | dir => exact hfail eisdir
          | special => exact hfail eisdir
          | file i =>
              have hreq : (t.goto (.read st id i 0)).req = t.req := rfl
              have hvis : g.hist.vis g.state.server.disk (su.path t) = g.hist.ver i := by
                rw [Hist.vis, hname]
              refine h.quiet hn hreq rfl hmove ?_ (fun _ _ => rfl) (fun key => Or.inl rfl) ?_ ?_ ?_
                ?_ ?_ h.recorded.stored
              · exact h.entries.keep hn hreq fun j hj => hid.trans hj
              · -- what is open is the file as it is
                intro st' v hv
                obtain ⟨rfl, rfl⟩ := Prod.mk.inj (Option.some.inj hv)
                exact h.counts.deliverable st hvis.le
              · rintro st' v - ⟨heq, -⟩
                simp at heq
              · exact le_trans (h.since_le hn).2 hvis.le
              · intro j hj
                obtain rfl := Option.some.inj hj
                exact Or.inr hname
              · exact fun j f heq => absurd heq (by simp)

/-- The read of a file. -/
theorem CacheInv.read (h : CacheInv su g) (hn : g.state.threads[n]? = some t) {st : Stat}
    {id i trys : Nat} (hpc : t.pc = .read st id i trys)
    (hadv : advance su g.state.server t io = some (s', t')) :
    CacheInv su (g.moved su n t s' t') := by
  have hmove : g.hist.move su g.state.server.disk g.state.server.disk n t =
      Hist.record { g.hist with got := Function.update g.hist.got n (g.hist.ver i) }
        g.state.server.disk := by simp [Hist.move, hpc]
  have hgot : ∀ m, m ≠ n → Function.update g.hist.got n (g.hist.ver i) m = g.hist.got m :=
    fun m hm => Function.update_of_ne hm _ _
  have hself : Function.update g.hist.got n (g.hist.ver i) n = g.hist.ver i :=
    Function.update_self _ _ _
  have hid : t.filling = some id := by rw [Thread.filling, hpc]
  have hopen : t.opened = some i := by rw [Thread.opened, hpc]
  have hown : g.hist.since n ≤ g.hist.ver i := by
    have hown := h.views.own n t hn
    rw [Own, hpc] at hown
    exact hown
  rw [advance, hpc] at hadv
  obtain ⟨rfl, rfl⟩ := Prod.mk.inj (Option.some.inj hadv)
  cases hfailed : io.failed with
  | some errno => exact h.fail hn hid hgot hmove errno
  | none =>
      dsimp only
      split_ifs with hsize
      · have hreq : (t.goto (.fill id (.ok
            ⟨st, strip (g.state.server.disk.inodes i).content⟩))).req = t.req := rfl
        refine h.quiet hn hreq rfl hmove ?_ hgot (fun key => Or.inl rfl) ?_ ?_ ?_ ?_ ?_
          h.recorded.stored
        · exact h.entries.keep hn hreq fun j hj => hid.trans hj
        · -- the content goes with the `stat` data it was read for
          intro st' v hv
          obtain ⟨rfl, rfl⟩ := Prod.mk.inj (Option.some.inj hv)
          refine h.views.deliverable (Or.inr ⟨n, t, hn, rfl, ?_⟩)
          rw [Hist.reading, hpc]
          exact congrArg (fun v => some (st, v)) hself.symm
        · rintro st' v - ⟨heq, -⟩
          simp at heq
        · show g.hist.since n ≤ Function.update g.hist.got n (g.hist.ver i) n
          rw [hself]
          exact hown
        · exact fun j hj => absurd hj (by simp [Thread.opened])
        · intro j f heq
          obtain ⟨-, rfl⟩ : id = j ∧ (⟨st, strip (g.state.server.disk.inodes i).content⟩ : Cached) =
              f := by simpa using heq
          rw [hself]
          exact ⟨i, _, h.recorded.opened n t i hn hopen, h.recorded.had i, rfl⟩
      · have hreq : (t.goto (.fstat id i trys)).req = t.req := rfl
        refine h.quiet hn hreq rfl hmove ?_ hgot (fun key => Or.inl rfl) ?_ ?_ hown ?_ ?_
          h.recorded.stored
        · exact h.entries.keep hn hreq fun j hj => hid.trans hj
        · exact fun st' v heq => absurd heq (by simp [Hist.reading])
        · rintro st' v - ⟨heq, -⟩
          simp at heq
        · exact fun j hj => Or.inl (hopen.trans hj)
        · exact fun j f heq => absurd heq (by simp)

/-- A read starts again with the size and time the file has now. -/
theorem CacheInv.fstat (h : CacheInv su g) (hn : g.state.threads[n]? = some t)
    {id i trys : Nat} (hpc : t.pc = .fstat id i trys)
    (hsafe : SafeStep su g.state g.hist n t io)
    (hadv : advance su g.state.server t io = some (s', t')) :
    CacheInv su (g.moved su n t s' t') := by
  have hmove : g.hist.move su g.state.server.disk g.state.server.disk n t =
      Hist.record g.hist g.state.server.disk := by simp [Hist.move, hpc]
  have hid : t.filling = some id := by rw [Thread.filling, hpc]
  have hopen : t.opened = some i := by rw [Thread.opened, hpc]
  have hfail := h.fail hn hid (fun _ _ => rfl) hmove
  rw [SafeStep, hpc] at hsafe
  rw [advance, hpc] at hadv
  obtain ⟨rfl, rfl⟩ := Prod.mk.inj (Option.some.inj hadv)
  cases hfailed : io.failed with
  | some errno => exact hfail errno
  | none =>
      obtain ⟨hcurrent, hawaited⟩ := hsafe hfailed
      dsimp only
      split_ifs with htrys
      · have hreq : (t.goto (.read (g.state.server.disk.inodes i).stat id i (trys + 1))).req =
            t.req := rfl
        refine h.quiet hn hreq rfl hmove ?_ (fun _ _ => rfl) (fun key => Or.inl rfl) ?_ ?_ ?_ ?_ ?_
          h.recorded.stored
        · exact h.entries.keep hn hreq fun j hj => hid.trans hj
        · intro st' v hv
          obtain ⟨rfl, rfl⟩ := Prod.mk.inj (Option.some.inj hv)
          refine ⟨hcurrent _ rfl, fun m u hu hkey => ?_⟩
          exact hawaited m (List.getElem?_eq_some_iff.mp hu).1 u hu hkey
        · rintro st' v - ⟨heq, -⟩
          simp at heq
        · have hown := h.views.own n t hn
          rw [Own, hpc] at hown
          exact hown
        · exact fun j hj => Or.inl (hopen.trans hj)
        · exact fun j f heq => absurd heq (by simp)
      · exact hfail io.errno

/-- What is read goes into the entry of the read. -/
theorem CacheInv.fill (h : CacheInv su g) (hn : g.state.threads[n]? = some t) {id : Nat}
    {result : Except Int Cached} (hpc : t.pc = .fill id result) :
    CacheInv su (g.moved su n t
      ⟨g.state.server.disk, store g.state.server.cache id (fillValue result)⟩
      (t.filled result)) := by
  have hmove : g.hist.move su g.state.server.disk g.state.server.disk n t =
      Hist.record { g.hist with fver := Function.update g.hist.fver id (g.hist.got n) }
        g.state.server.disk := by simp [Hist.move, hpc]
  have hid : t.filling = some id := by rw [Thread.filling, hpc]
  have hentry := (h.entries.holds n t id hn hid).1
  obtain ⟨got, hgot⟩ : ∃ got, t.filled result = t.readDone got := by
    unfold Thread.filled
    cases result <;> exact ⟨_, rfl⟩
  have hreq : (t.filled result).req = t.req := by rw [hgot, req_readDone]
  obtain ⟨hr', hheld⟩ : ¬ (t.filled result).Reads ∧ (t.filled result).held = none := by
    rw [hgot]
    exact readDone_idle t got
  have hnone : (t.filled result).filling = none := by rw [hgot, filling_readDone]
  refine h.leave hn hreq hheld hr' hmove (h.entries.store hn hreq hid hnone _)
    (cached_store g.hist hpc hentry) ?_
  intro key j f hkey hvalue
  cases result with
  | ok value =>
      by_cases hj : j = id
      · subst hj
        obtain rfl := g.state.server.cache.one hkey hentry
        obtain rfl : value = f := by
          have hval : (if j = j then some value else g.state.server.cache.value j) = some f :=
            hvalue
          simpa using hval
        rw [Function.update_self]
        exact h.recorded.filled n t j value hn hpc
      · have hval : (if j = id then some value else g.state.server.cache.value j) = some f := hvalue
        rw [if_neg hj] at hval
        rw [Function.update_of_ne hj]
        exact h.recorded.stored key j f hkey hval
  | error err =>
      have hj : j ≠ id := by
        rintro rfl
        have hent : (if g.state.server.cache.entry key = some j then none
            else g.state.server.cache.entry key) = some j := hkey
        split_ifs at hent with hsame
        exact hsame hent
      obtain ⟨hkey, hvalue⟩ := stored_delete hkey hvalue
      rw [Function.update_of_ne hj]
      exact h.recorded.stored key j f hkey hvalue

/-- The flush at the end of a write. -/
theorem CacheInv.flush (h : CacheInv su g) (hn : g.state.threads[n]? = some t)
    (hpc : t.pc = .flush) (hsafe : SafeStep su g.state g.hist n t io) :
    CacheInv su (g.moved su n t
      ⟨g.state.server.disk, nfsFlush g.state.server.cache t.req.key⟩ (t.finish 0)) := by
  rw [SafeStep, hpc] at hsafe
  have hreq : (t.finish 0).req = t.req := rfl
  have hr' : ¬ (t.finish 0).Reads := fun h => h
  obtain ⟨h', hh'⟩ : ∃ h' : Hist, h' = { g.hist with
      settled := Function.update g.hist.settled t.req.key
        (max (g.hist.settled t.req.key) (g.hist.eff n))
      acked := Function.update g.hist.acked (su.path t)
        (max (g.hist.acked (su.path t)) (g.hist.eff n)) } := ⟨_, rfl⟩
  have hmove : g.hist.move su g.state.server.disk g.state.server.disk n t =
      h'.record g.state.server.disk := by
    rw [hh', Hist.move, hpc]
  have hcounts : Counts su g.state.server.disk h' (g.state.threads.set n (t.finish 0)) := by
    rw [hh']
    exact h.counts.flush hn hreq
  have hviews : Views su g.state.server.disk h' (nfsFlush g.state.server.cache t.req.key)
      (g.state.threads.set n (t.finish 0)) := by
    subst hh'
    exact h.views.flush h.entries hn hr' hsafe rfl rfl rfl rfl
      fun key hkey => Function.update_of_ne hkey _ _
  have hentries : Entries (nfsFlush g.state.server.cache t.req.key)
      (g.state.threads.set n (t.finish 0)) :=
    (h.entries.flush hsafe).keep hn hreq fun id hid =>
      absurd ((not_reads hr' g.hist n).1.symm.trans hid) (by simp)
  have hnamed : h'.named = g.hist.named := by rw [hh']
  have hhad : h'.had = g.hist.had := by rw [hh']
  have hgot : h'.got = g.hist.got := by rw [hh']
  have hfver : h'.fver = g.hist.fver := by rw [hh']
  refine ⟨h.writers.keep hn rfl, ?_, hentries, ?_, ?_, ?_⟩
  · show Counts su g.state.server.disk (g.hist.move su _ g.state.server.disk n t) _
    rw [hmove]
    exact hcounts.record _
  · show Views su g.state.server.disk (g.hist.move su _ g.state.server.disk n t) _ _
    rw [hmove]
    exact hviews.record _
  · show Recorded su g.state.server.disk (g.hist.move su _ g.state.server.disk n t) _ _
    rw [hmove]
    refine h.recorded.step hn hreq hnamed hhad (fun m _ => by rw [hgot]) ?_ ?_ ?_
    · exact fun i hi => absurd hi ((not_reads_opened hr').1 i)
    · exact fun id f heq => absurd heq ((not_reads_opened hr').2 id f)
    · intro key id f hentry hvalue
      obtain ⟨hentry, hvalue⟩ := stored_flush hentry hvalue
      rw [hfver]
      exact h.recorded.stored key id f hentry hvalue
  · show Traced.Coherent ⟨_, g.hist.move su _ g.state.server.disk n t, _⟩
    rw [hmove]
    exact h.coherent_next hn hnamed hhad _ rfl

/-- **What a step of a thread preserves.** -/
theorem CacheInv.move (h : CacheInv su g) (hn : g.state.threads[n]? = some t)
    (hsafe : SafeStep su g.state g.hist n t io)
    (hadv : advance su g.state.server t io = some (s', t')) :
    CacheInv su (g.moved su n t s' t') := by
  have hwrite : t.AtWrite → CacheInv su (g.moved su n t s' t') :=
    fun hat => h.write hn hat hsafe hadv
  cases hpc : t.pc with
  | stat => exact h.stat hn hpc hadv
  | look st =>
      rw [advance, hpc] at hadv
      obtain ⟨rfl, rfl⟩ := Prod.mk.inj (Option.some.inj hadv)
      exact h.look hn (Or.inl hpc) (lookup_cases _ _ _)
  | wait st =>
      rw [advance, hpc] at hadv
      dsimp only at hadv
      split at hadv
      · obtain ⟨rfl, rfl⟩ := Prod.mk.inj (Option.some.inj hadv)
        obtain ⟨hr', hheld⟩ := readDone_idle t (.error eagain)
        have hreq := req_readDone t (.error eagain)
        have hmove : g.hist.move su g.state.server.disk g.state.server.disk n t =
            Hist.record g.hist g.state.server.disk := by simp [Hist.move, hpc]
        refine h.leave hn hreq hheld hr' hmove ?_ (fun key => Or.inl rfl) h.recorded.stored
        exact h.entries.keep hn hreq fun id hid =>
          absurd ((filling_readDone t _).symm.trans hid) (by simp)
      · obtain ⟨rfl, rfl⟩ := Prod.mk.inj (Option.some.inj hadv)
        exact h.look hn (Or.inr hpc) (lookup_cases _ _ _)
  | openRead st id => exact h.openRead hn hpc hadv
  | read st id i trys => exact h.read hn hpc hadv
  | fstat id i trys => exact h.fstat hn hpc hsafe hadv
  | fill id result =>
      rw [advance, hpc] at hadv
      obtain ⟨rfl, rfl⟩ := Prod.mk.inj (Option.some.inj hadv)
      exact h.fill hn hpc
  | edit got =>
      rw [advance, hpc] at hadv
      dsimp only at hadv
      split at hadv
      · rename_i board e hreq
        obtain ⟨rfl, rfl⟩ := Prod.mk.inj (Option.some.inj hadv)
        obtain ⟨hsame, hr', hheld⟩ := edited_idle su t e got io.now
        have hmove : g.hist.move su g.state.server.disk g.state.server.disk n t =
            Hist.record g.hist g.state.server.disk := by simp [Hist.move, hpc]
        refine h.leave hn hsame hheld hr' hmove ?_ (fun key => Or.inl rfl) h.recorded.stored
        exact h.entries.keep hn hsame fun id hid =>
          absurd ((not_reads hr' g.hist n).1.symm.trans hid) (by simp)
      · exact absurd hadv (by simp)
  | openWrite w => exact hwrite (by rw [Thread.AtWrite, hpc]; trivial)
  | writev i w => exact hwrite (by rw [Thread.AtWrite, hpc]; trivial)
  | rename i w => exact hwrite (by rw [Thread.AtWrite, hpc]; trivial)
  | unlink => exact hwrite (by rw [Thread.AtWrite, hpc]; trivial)
  | flush =>
      rw [advance, hpc] at hadv
      obtain ⟨rfl, rfl⟩ := Prod.mk.inj (Option.some.inj hadv)
      exact h.flush hn hpc hsafe
  | done status out =>
      rw [advance, hpc] at hadv
      exact absurd hadv (by simp)

/-- A request comes. -/
theorem CacheInv.start (h : CacheInv su g) (req : Request) :
    CacheInv su (g.next su (.start req)
      { g.state with threads := g.state.threads ++ [req.begin] }) := by
  have hheld : req.begin.held = none := by cases req <;> rfl
  have hr' : ¬ req.begin.Reads := by cases req <;> exact fun h => h
  have hold : ∀ (m : Nat) (u : Thread) (i : Nat), (g.state.threads ++ [req.begin])[m]? = some u →
      u.held = some i → g.state.threads[m]? = some u := by
    intro m u i hu hi
    rcases threads_append hu with ⟨-, hu⟩ | ⟨-, rfl⟩
    · exact hu
    · exact absurd (hheld.symm.trans hi) (by simp)
  refine ⟨⟨h.writers.sound, ?_, ?_⟩, h.counts.start req, h.entries.start req, h.views.start req,
    ⟨h.recorded.named, h.recorded.had, ?_, ?_, h.recorded.stored⟩, h.coherent⟩
  · intro m u i hu hi
    exact h.writers.held m u i (hold m u i hu hi) hi
  · intro m u i hu hi
    obtain ⟨hunnamed, hsole⟩ := h.writers.temp m u i
      (hold m u i hu (Thread.held_of_temp hi)) hi
    exact ⟨hunnamed, fun k v hv hi' => hsole k v (hold k v i hv hi') hi'⟩
  · intro m u i hu hi
    rcases threads_append hu with ⟨-, hu⟩ | ⟨-, rfl⟩
    · exact h.recorded.opened m u i hu hi
    · exact absurd hi ((not_reads_opened hr').1 i)
  · intro m u id f hu hpc
    rcases threads_append hu with ⟨-, hu⟩ | ⟨-, rfl⟩
    · exact h.recorded.filled m u id f hu hpc
    · exact absurd hpc ((not_reads_opened hr').2 id f)

/-- The cache makes room. -/
theorem CacheInv.evict (h : CacheInv su g) {id : Nat}
    (hsafe : ∀ u ∈ g.state.threads, u.filling ≠ some id) :
    CacheInv su (g.next su (.evict id)
      { g.state with
        server := { g.state.server with cache := g.state.server.cache.delete id } }) := by
  refine ⟨h.writers, h.counts, h.entries.delete hsafe, h.views.delete id,
    ⟨h.recorded.named, h.recorded.had, h.recorded.opened, h.recorded.filled, ?_⟩, h.coherent⟩
  intro key j f hentry hvalue
  obtain ⟨hentry, hvalue⟩ := stored_delete hentry hvalue
  exact h.recorded.stored key j f hentry hvalue

/-- What every step of a safe run preserves. -/
theorem CacheInv.step {g' : Traced} {e : Event} (h : CacheInv su g) (hsafe : SafeRead su g e)
    (hstep : histStep su g e = some g') : CacheInv su g' := by
  obtain ⟨s, hs, rfl⟩ := Option.map_eq_some_iff.mp hstep
  cases e with
  | start req =>
      obtain rfl := Option.some.inj hs
      exact h.start req
  | move n io =>
      obtain ⟨t, hn, hs⟩ := Option.bind_eq_some_iff.mp hs
      obtain ⟨⟨server, t'⟩, hadv, rfl⟩ := Option.map_eq_some_iff.mp hs
      have hnext : g.next su (.move n io)
          { server := server, threads := g.state.threads.set n t'
            stray := g.state.stray || strays g.state.server.cache t } =
          g.moved su n t server t' := by
        unfold Traced.next
        simp only [hn]
        rfl
      rw [hnext]
      exact h.move hn (hsafe t hn) hadv
  | evict id =>
      obtain rfl := Option.some.inj hs
      exact h.evict hsafe

end Steps

/-- A server without requests and with an empty cache. -/
theorem CacheInv.init {d : Disk} (hd : d.Sound) : CacheInv su (Traced.start d) := by
  have hnone : ∀ (n : Nat) (t : Thread), (Traced.start d).state.threads[n]? ≠ some t := by
    intro n t hn
    exact absurd hn (by simp [Traced.start, idle])
  have hempty : ∀ key id, Cache.empty.entry key ≠ some id := by
    intro key id hid
    exact absurd hid (by simp [Cache.empty])
  have hview : ∀ key st v, ¬ View (Traced.start d).hist Cache.empty (Traced.start d).state.threads
      key st v := by
    rintro key st v (hc | ⟨m, u, hu, -⟩)
    · obtain ⟨id, hid, -⟩ := Option.bind_eq_some_iff.mp hc
      exact hempty key id hid
    · exact hnone m u hu
  refine ⟨⟨hd, ?_, ?_⟩, ⟨?_, ?_, ?_, ?_, ?_, ?_, ?_, ?_⟩, ⟨?_, ?_, ?_⟩, ⟨?_, ?_, ?_⟩,
    ⟨?_, ?_, ?_, ?_, ?_⟩, rfl, ?_⟩
  · exact fun n t i hn => absurd hn (hnone n t)
  · exact fun n t i hn => absurd hn (hnone n t)
  · exact fun i => le_refl 0
  · exact fun p => le_refl 0
  · exact fun key => Nat.zero_le _
  · exact fun key => le_refl 0
  · exact fun n t hn => absurd hn (hnone n t)
  · exact fun n t hn => absurd hn (hnone n t)
  · exact fun n t hn => absurd hn (hnone n t)
  · exact fun n _ => rfl
  · exact fun n t id hn => absurd hn (hnone n t)
  · exact fun n m t u id hn => absurd hn (hnone n t)
  · exact fun key id hid => absurd hid (hempty key id)
  · exact fun key st v hkv => absurd hkv (hview key st v)
  · exact fun key st v hkv => absurd hkv (hview key st v)
  · exact fun m u hu => absurd hu (hnone m u)
  · exact fun p i hp => hp
  · exact fun i => ⟨rfl, rfl⟩
  · exact fun n t i hn => absurd hn (hnone n t)
  · exact fun n t id f hn => absurd hn (hnone n t)
  · exact fun key id f hid => absurd hid (hempty key id)
  · exact fun r hr => absurd hr (by simp [Traced.start])

/-- What a request has returned. -/
def Thread.returned (t : Thread) : Option (Int × Bytes) :=
  match t.pc with
  | .done status out => some (status, out)
  | _ => none

/-- A server for which keys with and without a `/` in front lead to the same file. -/
def slashSetup : Setup :=
  ⟨{ plainServer with normalizePath := fun file => 47 :: file.dropWhile (· = 47) }, Cb.Tcl.simple,
    500⟩

/-- Thread `n` writes a file in one second with all the others: `open`, `writev`, `rename` and the
flush. -/
def writes (n : Nat) (key : String) (text : String) : List Event :=
  .start (.write (ascii key) (ascii text) true false) :: List.replicate 4 (.move n {})

/-- Thread `n` reads a file, in `steps` steps. -/
def reads (n : Nat) (key : String) (steps : Nat) : List Event :=
  .start (.read (ascii key)) :: List.replicate steps (.move n {})

/-- An object is written, read, written again under the same key, and read again. -/
def sameKey : List Event :=
  writes 0 "a" "x" ++ reads 1 "a" 5 ++ writes 2 "a" "y" ++ reads 3 "a" 5

example : ((run (step slashSetup) (idle emptyServer) sameKey).map fun s =>
    s.threads.map Thread.returned) =
      some [some (0, []), some (0, ascii "x"), some (0, []), some (0, ascii "y")] := by
  decide

/-- The same with another key of the same file for the second write. -/
def otherKey : List Event :=
  writes 0 "a" "x" ++ reads 1 "a" 5 ++ writes 2 "/a" "y" ++ reads 3 "a" 2

/-- What the threads of that run return. -/
theorem otherKey_returned :
    ((run (histStep slashSetup) (Traced.start emptyServer.disk) otherKey).map fun g =>
      g.state.threads.map Thread.returned) =
        some [some (0, []), some (0, ascii "x"), some (0, []), some (0, ascii "x")] := by
  decide

/-- The file behind that run, and the versions its reads began with and have delivered. -/
theorem otherKey_reads :
    ((run (histStep slashSetup) (Traced.start emptyServer.disk) otherKey).map fun g =>
      (g.state.server.disk.fileAt (nfsPath slashSetup.cfg (ascii "a")),
        g.reads.map fun r => (r.since, r.version))) =
          some (some ⟨ascii "y\n", 0⟩, [(1, 1), (2, 1)]) := by
  decide

/-- A write flushes the entry a read has begun to fill. -/
def flushedRead : List Event :=
  writes 0 "a" "x" ++ reads 1 "a" 3 ++ writes 2 "a" "y" ++ List.replicate 2 (.move 1 {})

/-- **A read stores into an entry that is not in the cache any more.** -/
theorem stray_store : ∃ g,
    run (histStep slashSetup) (Traced.start emptyServer.disk) flushedRead = some g ∧
      g.state.stray = true ∧ ¬ g.Coherent := by
  have hrun : (run (histStep slashSetup) (Traced.start emptyServer.disk) flushedRead).map
      (fun g => g.state.stray) = some true := by decide
  obtain ⟨g, hg, hstray⟩ := Option.map_eq_some_iff.mp hrun
  refine ⟨g, hg, hstray, ?_⟩
  rintro ⟨hno, -⟩
  rw [hstray] at hno
  exact absurd hno (by simp)

end Nsdci.Nfs
