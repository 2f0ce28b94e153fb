import Nsdci.Nfs.Write

/-!
# Reads of a file that changes (`nfs.c`)

`NfsReadFile` reads a file again, up to ten times, when its size is not what `stat` said. Here the
file may be changed by others between any two system calls of the reader, and the other threads
leave anything in the cache. What is read has the size it should have, so it is all of the file at
one moment (`History.version`). But after ten reads the error is what `errno` was before: with 0 the
read is reported to be successful, and with `ENOENT` a board is taken for one that is not there. And
a copy in the cache is returned for its size and time. The main result is `read_consistent_iff`.
-/

namespace Nsdci.Nfs

open Lib

/-! ## The file -/

/-- What can happen to the file at a path, or to none: nothing; another file gets its name; the file
is truncated, appended to or written over; its name is removed. -/
inductive Changed (path : Bytes) (d : Disk) : Disk → Prop where
  | same : Changed path d d
  | replace (content : Bytes) (mtime : Int) :
      Changed path d (((d.create mtime).1.setInode d.next ⟨content, mtime⟩).setName path
        (some (.file d.next)))
  | modify {i : Nat} (hname : d.names path = some (.file i)) (content : Bytes) (mtime : Int) :
      Changed path d (d.setInode i ⟨content, mtime⟩)
  | remove : Changed path d (d.setName path none)

/-- The disk at every moment. -/
structure History (path : Bytes) where
  disk : Nat → Disk
  changed : ∀ n, Changed path (disk n) (disk (n + 1))
  used : ∀ i, (disk 0).names path = some (.file i) → i < (disk 0).next

/-! ## The reader -/

/-- The `errno` of a call that fails though the file is there. -/
abbrev Failure := { e : Int // 0 < e ∧ e ≠ enoent }

/-- What the reader gets from the cache, when no other thread is filling the entry any more: the
entry is deleted, new, or has a value. -/
inductive Look where
  | gone | new
  | found (f : Cached)

/-- A call of `NfsReadFile`: the moments of its system calls, those that fail, what it finds in the
cache, and what `errno` is after ten reads. -/
structure Call where
  stat : Nat
  opened : Nat
  read : Nat → Nat
  fstat : Nat → Nat
  done : Nat
  stat_le : stat ≤ opened
  opened_le : opened ≤ read 0
  read_le : ∀ k, read k ≤ fstat k
  fstat_le : ∀ k, fstat k ≤ read (k + 1)
  done_ge : ∀ k, read k ≤ done
  statFailed : Option Failure
  openFailed : Option Failure
  readFailed : Nat → Option Failure
  fstatFailed : Nat → Option Failure
  look : Look
  errno : Nat

/-- How a read ends. -/
inductive Outcome where
  | hit (buf : Bytes)
  | read (buf : Bytes)
  | failed (err : Int)
  | exhausted
  deriving DecidableEq

variable {path : Bytes} (h : History path) (c : Call)

/-- The loop of `NfsReadFile` over the open file, from a size on. -/
def readLoop (i : Nat) : Nat → Nat → Nat → Outcome
  | 0, _, _ => .exhausted
  | left + 1, trys, size =>
      match c.readFailed trys with
      | some err => .failed err
      | none =>
          let content := ((h.disk (c.read trys)).inodes i).content
          -- one byte more than the size is asked for
          if content.length = size then .read (strip content)
          else
            match c.fstatFailed trys with
            | some err => .failed err
            | none =>
                readLoop i left (trys + 1) ((h.disk (c.fstat trys)).inodes i).content.length

/-- `NfsReadFile` when the entry is to be filled. -/
def readNew (st : Stat) : Outcome :=
  match c.openFailed, (h.disk c.opened).names path with
  | some err, _ => .failed err
  | none, none => .failed enoent
  | none, some (.file i) => readLoop h c i 10 0 st.size
  | none, some _ => .failed eisdir

/-- `NfsReadFile`. -/
def readOutcome : Outcome :=
  match c.statFailed, (h.disk c.stat).statFile path with
  | some err, _ => .failed err
  | none, .error err => .failed err
  | none, .ok st =>
      match c.look with
      | .gone => .failed eagain
      | .new => readNew h c st
      | .found f => if f.st = st then .hit f.buf else readNew h c st

/-- What `NfsReadFile` returns, and its output when that is 0. -/
def Outcome.result (errno : Nat) : Outcome → Except Int Bytes
  | .hit buf | .read buf => .ok buf
  | .failed err => .error err
  | .exhausted => if errno = 0 then .ok [] else .error errno

/-- `NfsCbUpdate` behind its read: the text it writes. -/
def cbUpdate (edit : Bytes → Option Bytes) : Except Int Bytes → Option Bytes
  | .ok ds => edit ds
  | .error err => if err = enoent then edit [] else none

/-! ## What a read is to be -/

/-- The file had this at some moment of the call, but for a newline at its end. -/
def Version (out : Bytes) : Prop :=
  ∃ n, c.stat ≤ n ∧ n ≤ c.done ∧ ∃ v, (h.disk n).contentAt path = some v ∧ out = strip v

/-- A successful read delivers a version of the file; giving up is an error; and a board is not
overwritten after a read that failed, unless it was not there. -/
structure Consistent (edit : Bytes → Option Bytes) : Prop where
  version : ∀ out, (readOutcome h c).result c.errno = .ok out → Version h c out
  gaveUp : readOutcome h c = .exhausted → ∃ err, (readOutcome h c).result c.errno = .error err
  board : (cbUpdate edit ((readOutcome h c).result c.errno)).isSome →
    readOutcome h c ≠ .exhausted ∧
      ((readOutcome h c).result c.errno = .error enoent →
        ∃ n, c.stat ≤ n ∧ n ≤ c.done ∧ (h.disk n).names path = none)

/-- The size the file should have at a read: that of `stat`, then that of the last `fstat`. -/
def expected (st : Stat) (i : Nat) : Nat → Nat
  | 0 => st.size
  | k + 1 => ((h.disk (c.fstat k)).inodes i).content.length

/-- The file has another size at each of the ten reads, and no system call fails. -/
def GivesUp : Prop :=
  ∃ st i, c.statFailed = none ∧ (h.disk c.stat).statFile path = .ok st ∧
    (c.look = .new ∨ ∃ f, c.look = .found f ∧ f.st ≠ st) ∧
    c.openFailed = none ∧ (h.disk c.opened).names path = some (.file i) ∧
    ∀ k < 10, c.readFailed k = none ∧ c.fstatFailed k = none ∧
      ((h.disk (c.read k)).inodes i).content.length ≠ expected h c st i k

/-- The cache has a copy with the size and the time of the file. -/
def Hits (f : Cached) : Prop :=
  c.statFailed = none ∧ c.look = .found f ∧ (h.disk c.stat).statFile path = .ok f.st

/-- After ten reads `errno` is not 0, nor is it `ENOENT` unless the edit of an empty board fails;
and a copy with the size and the time of the file is a version of it. -/
def Safe (edit : Bytes → Option Bytes) : Prop :=
  (GivesUp h c → c.errno ≠ 0 ∧ ((c.errno : Int) = enoent → edit [] = none)) ∧
    ∀ f, Hits h c f → Version h c f.buf

/-! ## What was read is a version -/

section Changes

variable {d d' : Disk}

theorem Changed.next_le (h : Changed path d d') : d.next ≤ d'.next := by
  cases h with
  | same => exact le_rfl
  | replace content mtime => exact Nat.le_succ d.next
  | modify hname content mtime => exact le_rfl
  | remove => exact le_rfl

/-- The name of the path leads to an inode that is in use. -/
theorem Changed.used (h : Changed path d d')
    (hused : ∀ i, d.names path = some (.file i) → i < d.next) {i : Nat}
    (hname : d'.names path = some (.file i)) : i < d'.next := by
  cases h with
  | same => exact hused i hname
  | replace content mtime =>
      have hnew : some (Node.file d.next) = some (.file i) := (if_pos rfl).symm.trans hname
      obtain rfl : d.next = i := Node.file.inj (Option.some.inj hnew)
      exact Nat.lt_succ_self d.next
  | modify _ content mtime => exact hused i hname
  | remove =>
      have hnone : (none : Option Node) = some (.file i) := (if_pos rfl).symm.trans hname
      exact nomatch hnone

/-- An inode keeps its content, unless it is the file at the path. -/
theorem Changed.content (h : Changed path d d') {i : Nat} (hi : i < d.next) :
    (d'.inodes i).content = (d.inodes i).content ∨ d'.names path = some (.file i) := by
  cases h with
  | same => exact Or.inl rfl
  | replace content mtime =>
      refine Or.inl (congrArg Inode.content ?_)
      show (if i = d.next then _ else if i = d.next then _ else d.inodes i) = d.inodes i
      rw [if_neg hi.ne, if_neg hi.ne]
  | @modify j hname content mtime =>
      by_cases hij : i = j
      · exact Or.inr (hij ▸ hname)
      · exact Or.inl (congrArg Inode.content (if_neg hij))
  | remove => exact Or.inl rfl

end Changes

theorem History.used_at (n : Nat) :
    ∀ i, (h.disk n).names path = some (.file i) → i < (h.disk n).next := by
  induction n with
  | zero => exact h.used
  | succ n ih => exact fun i hname => (h.changed n).used ih hname

theorem History.next_le {a b : Nat} (hab : a ≤ b) : (h.disk a).next ≤ (h.disk b).next := by
  induction b, hab using Nat.le_induction with
  | base => exact le_rfl
  | succ b _ ih => exact ih.trans (h.changed b).next_le

/-- **An open file has a content that the file at the path had since.** -/
theorem History.version {a b i : Nat} (hname : (h.disk a).names path = some (.file i))
    (hab : a ≤ b) : ∃ n, a ≤ n ∧ n ≤ b ∧
      (h.disk n).contentAt path = some ((h.disk b).inodes i).content := by
  induction b, hab using Nat.le_induction with
  | base => exact ⟨a, le_rfl, le_rfl, contentAt_of_names hname⟩
  | succ b hab ih =>
      have hi : i < (h.disk b).next := (h.used_at a i hname).trans_le (h.next_le hab)
      rcases (h.changed b).content hi with hsame | hnamed
      · obtain ⟨n, hn, hnb, hcontent⟩ := ih
        exact ⟨n, hn, Nat.le_succ_of_le hnb, by rw [hsame, hcontent]⟩
      · exact ⟨b + 1, Nat.le_succ_of_le hab, le_rfl, contentAt_of_names hnamed⟩

/-! ## The loop -/

theorem Call.opened_le_read (k : Nat) : c.opened ≤ c.read k := by
  induction k with
  | zero => exact c.opened_le
  | succ k ih => exact ih.trans ((c.read_le k).trans (c.fstat_le k))

/-- The loop ends with a read of the whole file, with the error of a system call, or not at all. -/
theorem readLoop_cases (i left trys size : Nat) :
    (∃ k, readLoop h c i left trys size =
        .read (strip ((h.disk (c.read k)).inodes i).content)) ∨
      (∃ err : Failure, readLoop h c i left trys size = .failed err) ∨
      readLoop h c i left trys size = .exhausted := by
  induction left generalizing trys size with
  | zero => exact Or.inr (Or.inr rfl)
  | succ left ih =>
      rw [readLoop]
      cases c.readFailed trys with
      | some err => exact Or.inr (Or.inl ⟨err, rfl⟩)
      | none =>
          dsimp only
          split
          · exact Or.inl ⟨trys, rfl⟩
          · cases c.fstatFailed trys with
            | some err => exact Or.inr (Or.inl ⟨err, rfl⟩)
            | none => exact ih _ _

/-- The loop does not end when the size is another one at every read. -/
theorem readLoop_exhausted_iff (st : Stat) (i left trys : Nat) :
    readLoop h c i left trys (expected h c st i trys) = .exhausted ↔
      ∀ k, trys ≤ k → k < trys + left → c.readFailed k = none ∧ c.fstatFailed k = none ∧
        ((h.disk (c.read k)).inodes i).content.length ≠ expected h c st i k := by
  induction left generalizing trys with
  | zero => exact ⟨fun _ k hk hlt => absurd hk (by omega), fun _ => rfl⟩
  | succ left ih =>
      have hnext := ih (trys + 1)
      rw [readLoop]
      constructor
      · intro hloop
        cases hread : c.readFailed trys with
        | some err =>
            rw [hread] at hloop
            exact nomatch hloop
        | none =>
            rw [hread] at hloop
            dsimp only at hloop
            split_ifs at hloop with hsize
            cases hfstat : c.fstatFailed trys with
            | some err =>
                rw [hfstat] at hloop
                exact nomatch hloop
            | none =>
                rw [hfstat] at hloop
                intro k hk hlt
                rcases Nat.eq_or_lt_of_le hk with rfl | hk
                · exact ⟨hread, hfstat, hsize⟩
                · exact hnext.mp hloop k hk (by omega)
      · intro hall
        obtain ⟨hread, hfstat, hsize⟩ := hall trys le_rfl (by omega)
        rw [hread]
        dsimp only
        rw [if_neg hsize, hfstat]
        exact hnext.mpr fun k hk hlt => hall k (by omega) (by omega)

/-! ## The outcomes -/

/-- A file that is not there: only then the error is `ENOENT`. -/
theorem statFile_error {d : Disk} {err : Int} (hstat : d.statFile path = .error err) :
    err ≠ 0 ∧ (err = enoent → d.names path = none) := by
  unfold Disk.statFile at hstat
  cases hname : d.names path with
  | none =>
      rw [hname] at hstat
      obtain rfl : enoent = err := Except.error.inj hstat
      exact ⟨show (2 : Int) ≠ 0 by omega, fun _ => rfl⟩
  | some node =>
      rw [hname] at hstat
      cases node with
      | dir =>
          obtain rfl : eisdir = err := Except.error.inj hstat
          exact ⟨show (21 : Int) ≠ 0 by omega, fun hno => absurd hno (show (21 : Int) ≠ 2 by omega)⟩
      | special =>
          obtain rfl : einval = err := Except.error.inj hstat
          exact ⟨show (22 : Int) ≠ 0 by omega, fun hno => absurd hno (show (22 : Int) ≠ 2 by omega)⟩
      | file i => exact nomatch hstat

theorem statFile_ok {d : Disk} {st : Stat} (hstat : d.statFile path = .ok st) :
    ∃ i, d.names path = some (.file i) ∧ (d.inodes i).stat = st := by
  unfold Disk.statFile at hstat
  cases hname : d.names path with
  | none =>
      rw [hname] at hstat
      exact nomatch hstat
  | some node =>
      rw [hname] at hstat
      cases node with
      | dir | special => exact nomatch hstat
      | file i => exact ⟨i, rfl, Except.ok.inj hstat⟩

/-- What an outcome of a read says about the file. -/
def Explained : Outcome → Prop
  | .hit buf => ∃ f, Hits h c f ∧ f.buf = buf
  | .read buf => Version h c buf
  | .failed err => err ≠ 0 ∧
      (err = enoent → ∃ n, c.stat ≤ n ∧ n ≤ c.done ∧ (h.disk n).names path = none)
  | .exhausted => GivesUp h c

theorem Failure.explained (err : Failure) : Explained h c (.failed err) :=
  ⟨Int.ne_of_gt err.2.1, fun hno => absurd hno err.2.2⟩

theorem explained_readNew {st : Stat} (hstat : c.statFailed = none)
    (hst : (h.disk c.stat).statFile path = .ok st)
    (hlook : c.look = .new ∨ ∃ f, c.look = .found f ∧ f.st ≠ st) :
    Explained h c (readNew h c st) := by
  have hopened : c.opened ≤ c.done := (c.opened_le_read 0).trans (c.done_ge 0)
  unfold readNew
  cases hfailed : c.openFailed with
  | some err => exact Failure.explained h c err
  | none =>
      cases hname : (h.disk c.opened).names path with
      | none =>
          exact ⟨show (2 : Int) ≠ 0 by omega, fun _ => ⟨c.opened, c.stat_le, hopened, hname⟩⟩
      | some node =>
          cases node with
          | dir | special =>
              exact ⟨show (21 : Int) ≠ 0 by omega,
                fun hno => absurd hno (show (21 : Int) ≠ 2 by omega)⟩
          | file i =>
              dsimp only
              rcases readLoop_cases h c i 10 0 st.size with ⟨k, hread⟩ | ⟨err, hloop⟩ | hloop
              · rw [hread]
                obtain ⟨n, hn, hnk, hcontent⟩ := h.version hname (c.opened_le_read k)
                exact ⟨n, c.stat_le.trans hn, hnk.trans (c.done_ge k), _, hcontent, rfl⟩
              · rw [hloop]
                exact Failure.explained h c err
              · have hall := (readLoop_exhausted_iff h c st i 10 0).mp hloop
                rw [hloop]
                exact ⟨st, i, hstat, hst, hlook, hfailed, hname,
                  fun k hk => hall k (Nat.zero_le k) (by omega)⟩

/-- Every outcome is explained. -/
theorem explained_readOutcome : Explained h c (readOutcome h c) := by
  have hdone : c.stat ≤ c.done := c.stat_le.trans ((c.opened_le_read 0).trans (c.done_ge 0))
  unfold readOutcome
  cases hfailed : c.statFailed with
  | some err => exact Failure.explained h c err
  | none =>
      cases hst : (h.disk c.stat).statFile path with
      | error err =>
          obtain ⟨hne, hnone⟩ := statFile_error hst
          exact ⟨hne, fun hno => ⟨c.stat, le_rfl, hdone, hnone hno⟩⟩
      | ok st =>
          cases hlook : c.look with
          | gone =>
              exact ⟨show (11 : Int) ≠ 0 by omega,
                fun hno => absurd hno (show (11 : Int) ≠ 2 by omega)⟩
          | new => exact explained_readNew h c hfailed hst (Or.inl hlook)
          | found f =>
              dsimp only
              split_ifs with hsame
              · exact ⟨f, ⟨hfailed, hlook, hsame ▸ hst⟩, rfl⟩
              · exact explained_readNew h c hfailed hst (Or.inr ⟨f, hlook, hsame⟩)

/-- A copy with the size and the time of the file is returned. -/
theorem readOutcome_of_hits {f : Cached} (hf : Hits h c f) : readOutcome h c = .hit f.buf := by
  obtain ⟨hfailed, hlook, hst⟩ := hf
  unfold readOutcome
  rw [hfailed, hst]
  dsimp only
  rw [hlook]
  exact if_pos rfl

/-- A file that has another size at each of the ten reads is given up. -/
theorem readOutcome_of_givesUp (hup : GivesUp h c) : readOutcome h c = .exhausted := by
  obtain ⟨st, i, hfailed, hst, hlook, hopen, hname, hall⟩ := hup
  have hnew : readNew h c st = .exhausted := by
    unfold readNew
    rw [hopen, hname]
    exact (readLoop_exhausted_iff h c st i 10 0).mpr fun k _ hk => hall k (by omega)
  unfold readOutcome
  rw [hfailed, hst]
  dsimp only
  rcases hlook with hlook | ⟨f, hlook, hne⟩
  · rw [hlook]
    exact hnew
  · rw [hlook]
    exact (if_neg hne).trans hnew

/-- **A read is consistent with every history of the file exactly if, when it gives up, `errno` is
neither 0 nor, for a board, `ENOENT`, and a copy in the cache that has the size and the time of the
file is a version of it.** -/
theorem read_consistent_iff (edit : Bytes → Option Bytes) :
    Consistent h c edit ↔ Safe h c edit := by
  constructor
  · rintro ⟨hversion, hup, hboard⟩
    refine ⟨fun hgives => ?_, fun f hf => ?_⟩
    · have hout := readOutcome_of_givesUp h c hgives
      have hzero : c.errno ≠ 0 := by
        intro hzero
        obtain ⟨err, herr⟩ := hup hout
        rw [hout, hzero] at herr
        exact nomatch herr
      refine ⟨hzero, fun hnoent => ?_⟩
      have hresult : (readOutcome h c).result c.errno = .error enoent := by
        rw [hout, ← hnoent]
        exact if_neg hzero
      rw [hresult] at hboard
      by_contra hedit
      have hwrites : (cbUpdate edit (.error enoent)).isSome := by
        show (if enoent = enoent then edit [] else none).isSome
        rw [if_pos rfl]
        exact Option.isSome_iff_ne_none.mpr hedit
      exact (hboard hwrites).1 hout
    · have hout := readOutcome_of_hits h c hf
      exact hversion f.buf (by rw [hout]; rfl)
  · rintro ⟨hup, hhits⟩
    have hexplained := explained_readOutcome h c
    cases hout : readOutcome h c with
    | hit buf =>
        rw [hout] at hexplained
        obtain ⟨f, hf, rfl⟩ := hexplained
        refine ⟨fun out hok => ?_, fun hno => ?_, fun _ => ⟨?_, fun herr => ?_⟩⟩
        · rw [hout] at hok
          exact Except.ok.inj hok ▸ hhits f hf
        · exact nomatch hout.symm.trans hno
        · exact fun hno => nomatch hout.symm.trans hno
        · rw [hout] at herr
          exact nomatch herr
    | read buf =>
        rw [hout] at hexplained
        refine ⟨fun out hok => ?_, fun hno => ?_, fun _ => ⟨?_, fun herr => ?_⟩⟩
        · rw [hout] at hok
          exact Except.ok.inj hok ▸ hexplained
        · exact nomatch hout.symm.trans hno
        · exact fun hno => nomatch hout.symm.trans hno
        · rw [hout] at herr
          exact nomatch herr
    | failed err =>
        rw [hout] at hexplained
        refine ⟨fun out hok => ?_, fun hno => ?_, fun _ => ⟨?_, fun herr => ?_⟩⟩
        · rw [hout] at hok
          exact nomatch hok
        · exact nomatch hout.symm.trans hno
        · exact fun hno => nomatch hout.symm.trans hno
        · rw [hout] at herr
          exact hexplained.2 (Except.error.inj herr)
    | exhausted =>
        rw [hout] at hexplained
        obtain ⟨hzero, hnoent⟩ := hup hexplained
        have hresult : (readOutcome h c).result c.errno = .error c.errno := by
          rw [hout]
          exact if_neg hzero
        refine ⟨fun out hok => ?_, fun _ => ⟨_, hresult⟩, fun hwrites => ?_⟩
        · rw [hresult] at hok
          exact nomatch hok
        · -- the board is not written: there is no text to write
          rw [hresult] at hwrites
          have hnone : cbUpdate edit (.error c.errno) = none := by
            show (if (c.errno : Int) = enoent then edit [] else none) = none
            split_ifs with heq
            · exact hnoent heq
            · rfl
          rw [hnone] at hwrites
          exact nomatch hwrites

/-! ## Without others -/

/-- A disk that nobody changes. -/
def quiet (path : Bytes) (d : Disk)
    (hused : ∀ i, d.names path = some (.file i) → i < d.next) : History path :=
  ⟨fun _ => d, fun _ => .same, hused⟩

/-- What a reader gets from a cache. -/
def Cache.look (c : Cache) (key : Bytes) : Look :=
  match c.entry key with
  | none => .new
  | some id =>
      match c.value id with
      | none => .gone
      | some f => .found f

/-- **Without others these are the steps of `nfsReadFile`.** -/
theorem readOutcome_quiet (cfg : Config) (s : Server) (file : Bytes)
    (hused : ∀ i, s.disk.names (nfsPath cfg file) = some (.file i) → i < s.disk.next) (c : Call)
    (hlook : c.look = s.cache.look file)
    (hcalls : c.statFailed = none ∧ c.openFailed = none ∧ c.readFailed 0 = none) :
    (readOutcome (quiet (nfsPath cfg file) s.disk hused) c).result c.errno =
      (nfsReadFile cfg s file).2 := by
  obtain ⟨hstat, hopen, hread⟩ := hcalls
  have hdisk : ∀ n, (quiet (nfsPath cfg file) s.disk hused).disk n = s.disk := fun _ => rfl
  unfold readOutcome nfsReadFile
  rw [hstat, hdisk]
  cases hst : s.disk.statFile (nfsPath cfg file) with
  | error err => rfl
  | ok st =>
      obtain ⟨i, hname, rfl⟩ := statFile_ok hst
      have hnew : readNew (quiet (nfsPath cfg file) s.disk hused) c (s.disk.inodes i).stat =
          .read (strip (s.disk.inodes i).content) := by
        unfold readNew
        rw [hopen, hdisk, hname]
        dsimp only
        rw [readLoop, hread]
        exact if_pos rfl
      have hfile : s.disk.fileAt (nfsPath cfg file) = some (s.disk.inodes i) := by
        unfold Disk.fileAt
        rw [hname]
      dsimp only
      rw [hlook, hnew]
      unfold Cache.look lookup
      cases hentry : s.cache.entry file with
      | none =>
          dsimp only
          rw [hfile]
          rfl
      | some id =>
          dsimp only
          cases hvalue : s.cache.value id with
          | none => rfl
          | some f =>
              dsimp only
              split_ifs with hsame
              · rfl
              · dsimp only
                rw [hfile]
                rfl

/-- A file of one byte at even moments, and of two at odd ones. -/
def restlessDisk (n : Nat) : Disk where
  names _ := some (.file 0)
  inodes j := if j = 0 then ⟨if n % 2 = 0 then [97] else [97, 97], 0⟩ else ⟨[], 0⟩
  next := 1

/-- Its history. -/
def restless : History [] where
  disk := restlessDisk
  changed n := by
    have hnext : (restlessDisk n).setInode 0 ⟨if (n + 1) % 2 = 0 then [97] else [97, 97], 0⟩ =
        restlessDisk (n + 1) := by
      refine congrArg (Disk.mk _ · 1) (funext fun j => ?_)
      dsimp only [restlessDisk]
      split_ifs <;> rfl
    exact hnext ▸ Changed.modify rfl _ _
  used i hname := by
    obtain rfl : 0 = i := Node.file.inj (Option.some.inj hname)
    exact Nat.zero_lt_one

/-- A reader that sees the one byte with `stat` and `fstat`, and two when it reads, and for which
`errno` is 0. -/
def unlucky : Call where
  stat := 0
  opened := 0
  read k := if k < 10 then 2 * k + 1 else 20
  fstat k := if k < 10 then 2 * k + 2 else 20
  done := 20
  stat_le := le_rfl
  opened_le := Nat.zero_le _
  read_le k := by split_ifs <;> omega
  fstat_le k := by split_ifs <;> omega
  done_ge k := by split_ifs <;> omega
  statFailed := none
  openFailed := none
  readFailed _ := none
  fstatFailed _ := none
  look := .new
  errno := 0

/-- The file never is empty, but after ten reads this is what is returned, as a success. -/
theorem restless_read_empty : ¬ Consistent restless unlucky some := by
  intro h
  obtain ⟨n, -, -, v, hcontent, hv⟩ := h.version [] rfl
  have hfile : some (if n % 2 = 0 then [97] else [97, 97]) = some v := hcontent
  obtain rfl := Option.some.inj hfile
  split_ifs at hv
  · exact absurd hv (by decide)
  · exact absurd hv (by decide)

end Nsdci.Nfs
