import Nsdci.Nfs.Boards
import Nsdci.Store

/-!
# What a write leaves (`nfs.c`)

`NfsWriteFile3` with every outcome of its system calls, and what the file has then. A `writev` that
wrote less than it was given does not set `errno`, and the status is what `errno` was before: when
it was 0, the write is reported to be successful. `writeDisk` has the same steps on a disk
(`writeDisk_eq`); there is no `fsync` among them. The main result is `write_atomic_iff`.
-/

namespace Nsdci.Nfs

open Lib

/-- What `writev` does: it fails with an `errno` and has written nothing, or it returns a count and
leaves `errno` as it was. -/
inductive Writev where
  | failed (errno : Errno)
  | wrote (n errno : Nat)

/-- The outcomes of the system calls of a write. -/
structure WriteCalls where
  mkdirs : Bool
  uuid : Bool
  opened : Option Errno
  writev : Writev
  renamed : Bool

/-- The file can be written to: directories, the name of a temporary file and `open` are right. -/
def WriteCalls.Reached (calls : WriteCalls) (cfg : Config) (append : Bool) : Prop :=
  (cfg.mkdirs = true → calls.mkdirs = true) ∧
    (cfg.mode append = .rename → calls.uuid = true) ∧ calls.opened = none

instance (calls : WriteCalls) (cfg : Config) (append : Bool) :
    Decidable (calls.Reached cfg append) := inferInstanceAs (Decidable (_ ∧ _))

variable (cfg : Config)

/-- `NfsWriteFile3`: what the file has afterwards, and the status. `before` is what it had, and
`data` is what `writev` is given. -/
def writeCalls (append : Bool) (data : Bytes) (before : Option Bytes) (calls : WriteCalls) :
    Option Bytes × Int :=
  let mode := cfg.mode append
  if (cfg.mkdirs && !calls.mkdirs) || (mode = .rename && !calls.uuid) then (before, rpcError)
  else
    match calls.opened with
    | some errno => (before, errno)
    | none =>
        let file := if mode = .append then before.getD [] else []
        let old := if mode = .rename then before else some file
        match calls.writev with
        | .failed errno => (old, errno)
        | .wrote n errno =>
            let file := file ++ data.take n
            if n < data.length then (if mode = .rename then before else some file, errno)
            else if mode = .rename then
              if calls.renamed then (some file, 0) else (before, -1)
            else (some file, 0)

/-- What the file is to have. -/
def wanted (append : Bool) (data : Bytes) (before : Option Bytes) : Bytes :=
  if append then before.getD [] ++ data else data

/-- The status is 0 exactly if the file has what it is to have. Otherwise, where the file is
replaced by renaming, it has what it had, and the status is not 0. -/
structure Atomic (renames : Prop) (append : Bool) (data : Bytes) (before : Option Bytes)
    (calls : WriteCalls) : Prop where
  ok : (writeCalls cfg append data before calls).2 = 0 ↔
    (writeCalls cfg append data before calls).1 = some (wanted append data before)
  kept : (writeCalls cfg append data before calls).1 ≠ some (wanted append data before) → renames →
    (writeCalls cfg append data before calls).1 = before ∧
      (writeCalls cfg append data before calls).2 ≠ 0

/-- No short write goes unnoticed, and nothing that fails was not needed: the file does not have
what it is to have already. -/
def Fair (append : Bool) (data : Bytes) (before : Option Bytes) (calls : WriteCalls) : Prop :=
  if calls.Reached cfg append then
    match calls.writev with
    | .failed _ =>
        if cfg.mode append = .rename then before ≠ some (wanted append data before) else data ≠ []
    | .wrote n errno =>
        if data.length ≤ n then
          cfg.mode append = .rename → calls.renamed = false →
            before ≠ some (wanted append data before)
        else if cfg.mode append = .rename then
          errno = 0 ↔ before = some (wanted append data before)
        else errno ≠ 0
  else before ≠ some (wanted append data before)

/-- What is appended and fails leaves no file behind that was not there, and no part of the data. -/
def Untouched (append : Bool) (data : Bytes) (before : Option Bytes) (calls : WriteCalls) : Prop :=
  cfg.rename = true → append = true → calls.Reached cfg append →
    match calls.writev with
    | .failed _ => before.isSome
    | .wrote n _ => n < data.length → n = 0 ∧ before.isSome

section Outcomes

variable {cfg} {append : Bool} {data : Bytes} {before : Option Bytes} {calls : WriteCalls}

variable (data before) in
/-- A write that does not get to the file leaves it as it is. -/
theorem writeCalls_unreached (h : ¬ calls.Reached cfg append) :
    (writeCalls cfg append data before calls).1 = before ∧
      (writeCalls cfg append data before calls).2 ≠ 0 := by
  unfold writeCalls
  dsimp only
  by_cases hfirst : ((cfg.mkdirs && !calls.mkdirs) ||
      (decide (cfg.mode append = .rename) && !calls.uuid)) = true
  · rw [if_pos hfirst]
    exact ⟨rfl, show rpcError ≠ 0 by decide⟩
  · rw [if_neg hfirst]
    cases hopened : calls.opened with
    | some errno => exact ⟨rfl, Int.ne_of_gt errno.2⟩
    | none =>
        refine absurd ⟨fun hmkdirs => ?_, fun hmode => ?_, hopened⟩ h
        · by_contra hno
          exact hfirst (by simp [hmkdirs, hno])
        · by_contra hno
          exact hfirst (by simp [hmode, hno])

variable (data before) in
/-- A write that gets to the file. -/
theorem writeCalls_reached (h : calls.Reached cfg append) :
    writeCalls cfg append data before calls =
      match calls.writev with
      | .failed errno =>
          (if cfg.mode append = .rename then before
            else some (if cfg.mode append = .append then before.getD [] else []), errno)
      | .wrote n errno =>
          if n < data.length then
            (if cfg.mode append = .rename then before
              else
                some ((if cfg.mode append = .append then before.getD [] else []) ++ data.take n),
              errno)
          else if cfg.mode append = .rename then
            if calls.renamed then
              (some ((if cfg.mode append = .append then before.getD [] else []) ++ data.take n), 0)
            else (before, -1)
          else (some ((if cfg.mode append = .append then before.getD [] else []) ++
            data.take n), 0) := by
  obtain ⟨hmkdirs, huuid, hopened⟩ := h
  have hfirst : ¬ ((cfg.mkdirs && !calls.mkdirs) ||
      (decide (cfg.mode append = .rename) && !calls.uuid)) = true := by
    rw [Bool.or_eq_true, not_or]
    constructor
    · intro hno
      obtain ⟨hm, hn⟩ := Bool.and_eq_true_iff.mp hno
      rw [hmkdirs hm] at hn
      exact nomatch hn
    · intro hno
      obtain ⟨hm, hn⟩ := Bool.and_eq_true_iff.mp hno
      rw [huuid (of_decide_eq_true hm)] at hn
      exact nomatch hn
  unfold writeCalls
  dsimp only
  rw [if_neg hfirst, hopened]

/-- A part of the data is not all of it. -/
theorem append_take_ne {file : Bytes} {n : Nat} (hn : n < data.length) :
    file ++ data.take n ≠ file ++ data := by
  intro heq
  have hlen := congrArg List.length heq
  rw [List.length_append, List.length_append, List.length_take] at hlen
  omega

theorem append_eq_self_iff {file : Bytes} : file = file ++ data ↔ data = [] :=
  List.self_eq_append_right

/-- Of a write that failed, it is the content that counts. -/
theorem atomic_iff {renames : Prop} {after : Option Bytes} {status : Int}
    (h : writeCalls cfg append data before calls = (after, status)) :
    Atomic cfg renames append data before calls ↔
      (status = 0 ↔ after = some (wanted append data before)) ∧
        (renames → after ≠ some (wanted append data before) → after = before) := by
  constructor
  · rintro ⟨hok, hkept⟩
    rw [h] at hok hkept
    exact ⟨hok, fun hren hne => (hkept hne hren).1⟩
  · rintro ⟨hok, hkept⟩
    refine ⟨by rwa [h], fun hne hren => ?_⟩
    rw [h] at hne ⊢
    exact ⟨hkept hren hne, mt hok.mp hne⟩

/-- A write with an error that leaves the file as it is. -/
theorem atomic_of_kept {renames : Prop} {status : Int}
    (h : writeCalls cfg append data before calls = (before, status)) (hstatus : status ≠ 0) :
    Atomic cfg renames append data before calls ↔ before ≠ some (wanted append data before) := by
  rw [atomic_iff h]
  exact ⟨fun hatomic heq => hstatus (hatomic.1.mpr heq),
    fun hne => ⟨iff_of_false hstatus hne, fun _ _ => rfl⟩⟩

/-- A write that leaves what is wanted, with the status 0. -/
theorem atomic_of_written {renames : Prop}
    (h : writeCalls cfg append data before calls = (some (wanted append data before), 0)) :
    Atomic cfg renames append data before calls :=
  (atomic_iff h).mpr ⟨iff_of_true rfl rfl, fun _ hne => absurd rfl hne⟩

/-- A write by renaming. -/
theorem atomic_rename (h : calls.Reached cfg append) (hmode : cfg.mode append = .rename)
    (renames : Prop) :
    Atomic cfg renames append data before calls ↔ Fair cfg append data before calls := by
  have happend : append = false := by
    cases append with
    | false => rfl
    | true => exact absurd hmode (show WriteMode.append ≠ .rename by decide)
  have hwanted : wanted append data before = data := by
    rw [happend]
    rfl
  have hcalls := writeCalls_reached data before h
  simp only [hmode, if_true] at hcalls
  unfold Fair
  rw [if_pos h]
  cases hwritev : calls.writev with
  | failed errno =>
      rw [hwritev] at hcalls
      dsimp only
      rw [if_pos hmode]
      exact atomic_of_kept hcalls (Int.ne_of_gt errno.2)
  | wrote n errno =>
      rw [hwritev] at hcalls
      dsimp only at hcalls ⊢
      by_cases hn : data.length ≤ n
      · rw [if_neg (Nat.not_lt.mpr hn)] at hcalls
        rw [if_pos hn]
        cases hrenamed : calls.renamed with
        | true =>
            rw [hrenamed, if_pos rfl, List.take_of_length_le hn] at hcalls
            refine ⟨fun _ _ hno => absurd hno (by simp), fun _ => atomic_of_written ?_⟩
            rw [hcalls, hwanted]
            rfl
        | false =>
            rw [hrenamed, if_neg (by simp)] at hcalls
            rw [atomic_of_kept hcalls (by decide)]
            exact ⟨fun hne _ _ => hne, fun hne => hne hmode rfl⟩
      · rw [if_pos (Nat.lt_of_not_le hn)] at hcalls
        rw [if_neg hn, if_pos hmode, atomic_iff hcalls, Int.natCast_eq_zero]
        exact ⟨fun hatomic => hatomic.1, fun hfair => ⟨hfair, fun _ _ => rfl⟩⟩

/-- A write in place, to a file that had `file` when it was opened. -/
theorem atomic_inPlace (h : calls.Reached cfg append) (hmode : cfg.mode append ≠ .rename)
    (renames : Prop) (hrenames : renames → append = true ∧ cfg.rename = true) :
    Atomic cfg renames append data before calls ↔
      Fair cfg append data before calls ∧ (renames → Untouched cfg append data before calls) := by
  obtain ⟨file, hfile, hwanted⟩ : ∃ file,
      (if cfg.mode append = .append then before.getD [] else []) = file ∧
        wanted append data before = file ++ data := by
    cases append with
    | true => exact ⟨before.getD [], if_pos rfl, rfl⟩
    | false =>
        refine ⟨[], if_neg ?_, rfl⟩
        show cfg.mode false ≠ .append
        unfold Config.mode
        cases cfg.rename <;> simp
  have hkeep : renames → (some file = before ↔ before.isSome) := by
    intro hren
    obtain ⟨rfl, -⟩ := hrenames hren
    obtain rfl : before.getD [] = file := hfile
    cases before with
    | none => exact ⟨fun heq => (nomatch heq), fun hsome => (nomatch hsome)⟩
    | some old => exact ⟨fun _ => rfl, fun _ => rfl⟩
  have hcalls := writeCalls_reached data before h
  simp only [if_neg hmode, hfile] at hcalls
  unfold Fair Untouched
  rw [if_pos h]
  cases hwritev : calls.writev with
  | failed errno =>
      rw [hwritev] at hcalls
      dsimp only
      have herrno := Int.ne_of_gt errno.2
      rw [if_neg hmode, atomic_iff hcalls, hwanted, Ne, Option.some_inj, append_eq_self_iff]
      constructor
      · rintro ⟨hok, hkept⟩
        have hdata : data ≠ [] := fun hnil => herrno (hok.mpr hnil)
        exact ⟨hdata, fun hren _ _ _ => (hkeep hren).mp (hkept hren hdata)⟩
      · rintro ⟨hdata, huntouched⟩
        refine ⟨iff_of_false herrno hdata, fun hren _ => (hkeep hren).mpr ?_⟩
        exact huntouched hren (hrenames hren).2 (hrenames hren).1 h
  | wrote n errno =>
      rw [hwritev] at hcalls
      dsimp only at hcalls ⊢
      by_cases hn : data.length ≤ n
      · rw [if_neg (Nat.not_lt.mpr hn), List.take_of_length_le hn, ← hwanted] at hcalls
        rw [if_pos hn]
        exact iff_of_true (atomic_of_written hcalls)
          ⟨fun hren => absurd hren hmode, fun _ _ _ _ hlt => absurd hlt (Nat.not_lt.mpr hn)⟩
      · have hlt := Nat.lt_of_not_le hn
        rw [if_pos hlt] at hcalls
        have hpart : file ++ data.take n ≠ file ++ data := append_take_ne hlt
        rw [if_neg hn, if_neg hmode, atomic_iff hcalls, hwanted, Int.natCast_eq_zero, Ne,
          Option.some_inj, iff_false_right hpart]
        refine and_congr_right fun _ => forall_congr' fun hren => ?_
        constructor
        · intro hkept _ _ _ _
          have hbefore := hkept hpart
          obtain ⟨rfl, -⟩ := hrenames hren
          have hsame : before.getD [] = file := hfile
          rw [← hbefore] at hsame
          have htake : data.take n = [] := List.append_right_eq_self.mp hsame
          refine ⟨?_, by rw [← hbefore]; rfl⟩
          have hlen := congrArg List.length htake
          rw [List.length_take, List.length_nil] at hlen
          omega
        · intro huntouched _
          obtain ⟨rfl, hsome⟩ := huntouched (hrenames hren).2 (hrenames hren).1 h hlt
          rw [List.take_zero, List.append_nil]
          exact (hkeep hren).mpr hsome

/-- **A write that is to rename is atomic, and the status tells of every write what the file has,
exactly if no short write goes unnoticed and nothing that fails was not needed.** With all writes of
a configuration that renames, those that append must also leave the file alone when they fail. -/
theorem write_atomic_iff (append : Bool) (data : Bytes) (before : Option Bytes)
    (calls : WriteCalls) :
    (Atomic cfg (cfg.mode append = .rename) append data before calls ↔
        Fair cfg append data before calls) ∧
      (Atomic cfg (cfg.rename = true) append data before calls ↔
        Fair cfg append data before calls ∧ Untouched cfg append data before calls) := by
  by_cases h : calls.Reached cfg append
  · by_cases hmode : cfg.mode append = .rename
    · refine ⟨atomic_rename h hmode _, (atomic_rename h hmode _).trans
        ⟨fun hfair => ⟨hfair, fun _ happend => ?_⟩, fun hboth => hboth.1⟩⟩
      rw [happend] at hmode
      exact nomatch hmode
    · constructor
      · rw [atomic_inPlace h hmode _ fun hren => absurd hren hmode]
        exact and_iff_left fun hren => absurd hren hmode
      · rw [atomic_inPlace h hmode]
        · exact and_congr_right fun _ => ⟨fun huntouched hren => huntouched hren hren,
            fun huntouched _ => huntouched⟩
        · intro hren
          refine ⟨?_, hren⟩
          by_contra happend
          refine hmode ?_
          rw [Bool.eq_false_iff.mpr happend]
          exact if_pos hren
  · obtain ⟨hafter, hstatus⟩ := writeCalls_unreached data before h
    have hcalls : writeCalls cfg append data before calls =
        (before, (writeCalls cfg append data before calls).2) := Prod.ext hafter rfl
    have hfair : Fair cfg append data before calls ↔
        before ≠ some (wanted append data before) := by
      unfold Fair
      rw [if_neg h]
    rw [atomic_of_kept hcalls hstatus, atomic_of_kept hcalls hstatus, hfair]
    exact ⟨Iff.rfl, (and_iff_left fun _ _ hreached => absurd hreached h).symm⟩

end Outcomes

/-- A server that renames. -/
def renamingServer : Config := ⟨[], false, false, true, id, fun _ file => file⟩

/-- A short `writev` to a temporary file, with no `errno` from before: there is no file afterwards,
and the status is 0. -/
theorem short_write_unnoticed :
    ¬ Atomic renamingServer (renamingServer.mode false = .rename) false [97, 10] none
      ⟨true, true, none, .wrote 1 0, true⟩ := by
  intro h
  exact absurd (h.ok.mp rfl) (by decide)

/-! ## On a disk -/

/-- What the file at a path has. -/
def Disk.contentAt (d : Disk) (path : Bytes) : Option Bytes := (d.fileAt path).map Inode.content

/-- The outcomes of the system calls on a disk. -/
def WriteIo.calls (io : WriteIo) (cfg : Config) (d : Disk) (key : Bytes) (append : Bool)
    (data : Bytes) (now : Int) : WriteCalls where
  mkdirs := io.mkdirs
  uuid := io.uuid
  opened :=
    match io.opened, openWrite d (cfg.mode append) (nfsPath cfg key) now with
    | some errno, _ => some errno
    | none, none => some ⟨eisdir, by decide⟩
    | none, some _ => none
  writev :=
    match io.short with
    | some (n, errno) => .wrote n errno.1.toNat
    | none => .wrote data.length 0
  renamed := io.renamed

theorem contentAt_of_names {d : Disk} {path : Bytes} {i : Nat}
    (h : d.names path = some (.file i)) : d.contentAt path = some (d.inodes i).content := by
  unfold Disk.contentAt Disk.fileAt
  rw [h]
  rfl

/-- The file that is open after `open` in place. -/
theorem openWrite_inPlace {d d' : Disk} {mode : WriteMode} {path : Bytes} {now : Int} {i : Nat}
    (hmode : mode ≠ .rename) (h : openWrite d mode path now = some (d', i)) :
    d'.names path = some (.file i) ∧
      (d'.inodes i).content = if mode = .append then (d.contentAt path).getD [] else [] := by
  cases hname : d.names path with
  | none =>
      have hnone : d.contentAt path = none := by
        unfold Disk.contentAt Disk.fileAt
        rw [hname]
        rfl
      have hopen : openWrite d mode path now =
          some ((d.create now).1.setName path (some (.file d.next)), d.next) := by
        unfold openWrite
        rw [hname]
        cases mode with
        | rename => exact absurd rfl hmode
        | append | trunc => rfl
      rw [hopen] at h
      obtain ⟨rfl, rfl⟩ := Prod.mk.inj (Option.some.inj h)
      refine ⟨if_pos rfl, ?_⟩
      rw [hnone, Option.getD_none, ite_self]
      exact congrArg Inode.content (if_pos rfl)
  | some node =>
      cases node with
      | dir =>
          unfold openWrite at h
          rw [hname] at h
          cases mode <;> first | exact absurd rfl hmode | exact nomatch h
      | special =>
          unfold openWrite at h
          rw [hname] at h
          cases mode <;> first | exact absurd rfl hmode | exact nomatch h
      | file j =>
          unfold openWrite at h
          rw [hname] at h
          cases mode with
          | rename => exact absurd rfl hmode
          | append =>
              obtain ⟨rfl, rfl⟩ := Prod.mk.inj (Option.some.inj h)
              refine ⟨hname, ?_⟩
              rw [contentAt_of_names hname]
              rfl
          | trunc =>
              obtain ⟨rfl, rfl⟩ := Prod.mk.inj (Option.some.inj h)
              exact ⟨hname, congrArg Inode.content (if_pos rfl)⟩

/-- The file at a path after `writev` to it. -/
theorem contentAt_writeBytes {d : Disk} {mode : WriteMode} {path : Bytes} {i : Nat} (bs : Bytes)
    (now : Int) (hname : d.names path = some (.file i)) {file : Bytes}
    (hfile : (d.inodes i).content = file) (hempty : mode ≠ .append → file = []) :
    (writeBytes d mode i bs now).contentAt path = some (file ++ bs) := by
  rw [contentAt_of_names (by rw [names_writeBytes]; exact hname)]
  unfold writeBytes
  split_ifs with hbs hmode
  · rw [hfile, hbs, List.append_nil]
  · rw [d.setInode_same, hfile]
  · rw [d.setInode_same, hfile, hempty hmode, List.drop_nil, List.append_nil]
    rfl

/-- A write to a temporary file leaves the files with names alone. -/
theorem contentAt_temporary {d : Disk}
    (hnext : ∀ path i, d.names path = some (.file i) → i < d.next) (path bs : Bytes) (now : Int) :
    (writeBytes (d.create now).1 .rename d.next bs now).contentAt path = d.contentAt path := by
  have hnames : (writeBytes (d.create now).1 .rename d.next bs now).names path = d.names path := by
    rw [names_writeBytes]
    rfl
  cases hname : d.names path with
  | none =>
      unfold Disk.contentAt Disk.fileAt
      rw [hnames, hname]
  | some node =>
      cases node with
      | dir | special =>
          unfold Disk.contentAt Disk.fileAt
          rw [hnames, hname]
      | file j =>
          have hne : j ≠ d.next := (hnext path j hname).ne
          rw [contentAt_of_names (hnames.trans hname), contentAt_of_names hname,
            writeBytes_ne _ _ _ _ hne, d.create_ne now hne]

/-- **`writeDisk` does these steps.** -/
theorem writeDisk_eq (d : Disk) (key bytes : Bytes) (nl append : Bool) (io : WriteIo) (now : Int)
    (hnext : ∀ path i, d.names path = some (.file i) → i < d.next)
    (hshort : ∀ short ∈ io.short, short.1 < (payload nl bytes).length) :
    ((writeDisk cfg d key bytes nl append io now).1.contentAt (nfsPath cfg key),
        (writeDisk cfg d key bytes nl append io now).2) =
      writeCalls cfg append (payload nl bytes) (d.contentAt (nfsPath cfg key))
        (io.calls cfg d key append (payload nl bytes) now) := by
  unfold writeDisk writeCalls WriteIo.calls
  dsimp only
  by_cases hfirst : ((cfg.mkdirs && !io.mkdirs) ||
      (decide (cfg.mode append = .rename) && !io.uuid)) = true
  · rw [if_pos hfirst, if_pos hfirst]
  · rw [if_neg hfirst, if_neg hfirst]
    cases hopened : io.opened with
    | some errno => rfl
    | none =>
        cases hopen : openWrite d (cfg.mode append) (nfsPath cfg key) now with
        | none => rfl
        | some r =>
            obtain ⟨d', i⟩ := r
            dsimp only
            by_cases hmode : cfg.mode append = .rename
            · rw [hmode] at hopen ⊢
              obtain ⟨rfl, rfl⟩ := Prod.mk.inj (Option.some.inj hopen)
              cases hio : io.short with
              | some short =>
                  obtain ⟨n, errno⟩ := short
                  have hn : n < (payload nl bytes).length := hshort _ hio
                  dsimp only
                  rw [if_pos hn, if_pos rfl, Int.toNat_of_nonneg (Int.le_of_lt errno.2)]
                  exact Prod.ext (contentAt_temporary hnext _ _ _) rfl
              | none =>
                  dsimp only
                  rw [if_neg (Nat.lt_irrefl _), if_pos rfl, if_pos rfl]
                  cases io.renamed with
                  | false => exact Prod.ext (contentAt_temporary hnext _ _ _) rfl
                  | true =>
                      rw [if_pos rfl, if_pos rfl, List.take_length]
                      refine Prod.ext ?_ rfl
                      have hempty : ((d.create now).1.inodes d.next).content = [] :=
                        congrArg Inode.content (if_pos rfl)
                      exact (contentAt_of_names (if_pos rfl)).trans
                        (congrArg some (writeBytes_empty _ _ _ now hempty))
            · obtain ⟨hname, hfile⟩ := openWrite_inPlace hmode hopen
              have hempty : cfg.mode append ≠ .append → (if cfg.mode append = .append then
                  (d.contentAt (nfsPath cfg key)).getD [] else []) = [] := fun h => if_neg h
              cases hio : io.short with
              | some short =>
                  obtain ⟨n, errno⟩ := short
                  have hn : n < (payload nl bytes).length := hshort _ hio
                  dsimp only
                  rw [if_pos hn, if_neg hmode, Int.toNat_of_nonneg (Int.le_of_lt errno.2)]
                  exact Prod.ext (contentAt_writeBytes _ now hname hfile hempty) rfl
              | none =>
                  dsimp only
                  rw [if_neg (Nat.lt_irrefl _), if_neg hmode, if_neg hmode, List.take_length]
                  exact Prod.ext (contentAt_writeBytes _ now hname hfile hempty) rfl

end Nsdci.Nfs
