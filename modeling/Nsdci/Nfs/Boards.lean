import Nsdci.Nfs.Steps

/-!
# Posts and deletes in many threads

`NfsCbUpdate` reads a board, edits its text and writes it back, and no lock is held from the read to
the write. So an update that another one overtakes writes a text without the other's change.

When every update writes only over the text it has read (`SafeUpdate`), a board is always what the
updates that have written make of it one after the other (`InOrder`), and the numbers of its posts
stay distinct. Two posts that both read the empty board break that.
-/

namespace Nsdci.Nfs

open Lib

/-- A read, or an update of a board. -/
def Request.OnBoards : Request → Prop
  | .read _ | .update _ _ => True
  | .write _ _ _ _ | .unlink _ => False

/-- Requests that come are reads and updates of boards. -/
def Event.OnBoards : Event → Prop
  | .start req => req.OnBoards
  | .move _ _ | .evict _ => True

instance : (req : Request) → Decidable req.OnBoards
  | .read _ | .update _ _ => inferInstanceAs (Decidable True)
  | .write _ _ _ _ | .unlink _ => inferInstanceAs (Decidable False)

instance : (e : Event) → Decidable e.OnBoards
  | .start req => inferInstanceAs (Decidable req.OnBoards)
  | .move _ _ | .evict _ => inferInstanceAs (Decidable True)

/-- The text of the board in a file. A file that is not there is an empty board. -/
def boardText (d : Disk) (path : Bytes) : Bytes := ((d.fileAt path).map Inode.content).getD []

/-- An update that has written: its thread, what it does, and the time of its edit. -/
structure Entry where
  thread : Nat
  edit : Cb.Edit
  time : Int

/-- The text of a board after an update that is alone. -/
def Setup.updated (su : Setup) (text : Bytes) (e : Entry) : Option Bytes :=
  (e.edit.apply su.tcl su.maxposts e.time (strip text)).map (payload true)

namespace Thread

/-- The thread has written, and is about to return 0 or has done so. -/
def Applied (t : Thread) : Prop :=
  match t.pc with
  | .flush => True
  | .done status _ => status = 0
  | _ => False

/-- The inode the thread writes. -/
def held (t : Thread) : Option Nat :=
  match t.pc with
  | .writev i _ | .rename i _ => some i
  | _ => none

end Thread

/-- The thread updates the board in the file `p`. -/
def Updates (su : Setup) (p : Bytes) (t : Thread) : Prop :=
  su.path t = p ∧ ∃ board e, t.req = .update board e

/-- The thread has truncated the file `p` and is about to write it. -/
def InPlace (su : Setup) (p : Bytes) (t : Thread) : Prop :=
  su.cfg.rename = false ∧ su.path t = p ∧ ∃ i w, t.pc = .writev i w

/-- **The board in the file `p` is what the updates in `log` make of `text` one after the other**,
and these are the updates that have written. In the middle of a write in place it is the text the
update in its middle has read. -/
structure InOrder (su : Setup) (p text : Bytes) (s : State) (log : List Entry) : Prop where
  once : (log.map Entry.thread).Nodup
  entry : ∀ e ∈ log, ∃ t board, s.threads[e.thread]? = some t ∧ su.path t = p ∧
    t.req = .update board e.edit ∧ t.time = e.time ∧ t.Applied
  all : ∀ (n : Nat) (t : Thread), s.threads[n]? = some t → Updates su p t → t.Applied →
    n ∈ log.map Entry.thread
  result : ∃ board, log.foldlM su.updated text = some board ∧
    (∀ (n : Nat) (t : Thread), s.threads[n]? = some t → InPlace su p t → t.text = strip board) ∧
    ((∀ t ∈ s.threads, ¬ InPlace su p t) → boardText s.server.disk p = board)

/-- What an update must find when it writes: the board still has the text it has read. A write in
place begins with the truncation; no other may be between its two steps then, and `writev` must
write everything. -/
def SafeAt (su : Setup) (s : State) (t : Thread) (io : Io) : Pc → Prop
  | .openWrite _ => su.cfg.rename = false → io.failed = none →
      t.text = strip (boardText s.server.disk (su.path t)) ∧
        ∀ u ∈ s.threads, ¬ InPlace su (su.path t) u
  | .writev _ _ => su.cfg.rename = false → io.short = none
  | .rename _ _ => io.failed = none → t.text = strip (boardText s.server.disk (su.path t))
  | _ => True

@[inherit_doc SafeAt]
def SafeUpdate (su : Setup) (s : State) (e : Event) : Prop :=
  match e with
  | .move n io => ∀ t ∈ s.threads[n]?, SafeAt su s t io t.pc
  | _ => True

/-- The point before `writev`. -/
def Pc.isWritev : Pc → Bool
  | .writev _ _ => true
  | _ => false

theorem Pc.isWritev_iff (pc : Pc) : pc.isWritev = true ↔ ∃ i w, pc = .writev i w := by
  cases pc <;> simp [Pc.isWritev]

instance (pc : Pc) : Decidable (∃ i w, pc = .writev i w) := decidable_of_iff _ pc.isWritev_iff

instance (su : Setup) (p : Bytes) (t : Thread) : Decidable (InPlace su p t) :=
  inferInstanceAs (Decidable (_ ∧ _ ∧ _))

instance (su : Setup) (s : State) (t : Thread) (io : Io) :
    (pc : Pc) → Decidable (SafeAt su s t io pc)
  | .openWrite _ => inferInstanceAs (Decidable (_ → _ → _ ∧ _))
  | .writev _ _ => inferInstanceAs (Decidable (_ → _))
  | .rename _ _ => inferInstanceAs (Decidable (_ → _))
  | .stat | .look _ | .wait _ | .openRead _ _ | .read _ _ _ _ | .fstat _ _ _ | .fill _ _ | .edit _
  | .unlink | .flush | .done _ _ => inferInstanceAs (Decidable True)

instance (su : Setup) (s : State) (e : Event) : Decidable (SafeUpdate su s e) :=
  match e with
  | .move n io => inferInstanceAs (Decidable (∀ t ∈ s.threads[n]?, SafeAt su s t io t.pc))
  | .start _ => inferInstanceAs (Decidable True)
  | .evict _ => inferInstanceAs (Decidable True)

/-! ## What one step changes on the disk -/

/-- No file has two names, and only inodes that are in use have one. -/
structure Disk.Sound (d : Disk) : Prop where
  used : ∀ p i, d.names p = some (.file i) → i < d.next
  one : ∀ p q i, d.names p = some (.file i) → d.names q = some (.file i) → p = q

/-- No name leads to the inode. -/
def Disk.Unnamed (d : Disk) (i : Nat) : Prop := ∀ p, d.names p ≠ some (.file i)

/-- Nothing changes but the file `q` and the inode `i`. A name changes to `i` only where writes go
to a new file, or where there was no file. -/
structure Effect (su : Setup) (d d' : Disk) (q : Bytes) (i : Nat) : Prop where
  next : d.next ≤ d'.next
  used : i < d'.next
  inodes : ∀ j < d.next, j ≠ i → d'.inodes j = d.inodes j
  names : ∀ p ≠ q, d'.names p = d.names p
  name : d'.names q = d.names q ∨
    d'.names q = some (.file i) ∧ (su.cfg.rename = true ∨ d.names q = none)
  other : ∀ p ≠ q, d.names p ≠ some (.file i)

/-- What an update at a point of `NfsWriteFile3` writes is the edit of the text it has read. -/
def Edited (su : Setup) (t : Thread) (w : Write) : Prop :=
  w.nl = true ∧ w.append = false ∧ ∃ board e, t.req = .update board e ∧
    e.apply su.tcl su.maxposts t.time t.text = some w.bytes

/-- What holds of a thread on boards and the inode it writes. -/
def Good (su : Setup) (d : Disk) (t : Thread) : Prop :=
  match t.pc with
  | .openWrite w => Edited su t w
  | .writev i w => Edited su t w ∧ i < d.next ∧ (d.inodes i).content = [] ∧
      if su.cfg.rename then d.Unnamed i else d.names (su.path t) = some (.file i)
  | .rename i w => Edited su t w ∧ i < d.next ∧ (d.inodes i).content = payload true w.bytes ∧
      d.Unnamed i ∧ su.cfg.rename = true
  | .unlink => False
  | .flush => ∃ board e, t.req = .update board e
  | _ => True

variable {su : Setup} {d d' : Disk} {p q : Bytes} {i : Nat}

/-- A disk stays sound. -/
theorem Effect.sound (h : Effect su d d' q i) (hd : d.Sound) : d'.Sound := by
  have hname : ∀ p j, d'.names p = some (.file j) →
      d.names p = some (.file j) ∨ p = q ∧ j = i := by
    intro p j hp
    by_cases hpq : p = q
    · subst hpq
      rcases h.name with hsame | ⟨hnew, -⟩
      · exact Or.inl (hsame ▸ hp)
      · rw [hnew] at hp
        simp only [Option.some.injEq, Node.file.injEq] at hp
        exact Or.inr ⟨rfl, hp.symm⟩
    · exact Or.inl (h.names p hpq ▸ hp)
  refine ⟨fun p j hp => ?_, fun p r j hp hr => ?_⟩
  · rcases hname p j hp with hold | ⟨-, rfl⟩
    · exact Nat.lt_of_lt_of_le (hd.used p j hold) h.next
    · exact h.used
  · rcases hname p j hp with hold | ⟨rfl, rfl⟩
    · rcases hname r j hr with hold' | ⟨rfl, rfl⟩
      · exact hd.one p r j hold hold'
      · by_contra hne
        exact h.other p hne hold
    · rcases hname r j hr with hold' | ⟨rfl, -⟩
      · by_contra hne
        exact h.other r (fun heq => hne heq.symm) hold'
      · rfl

/-- The text of a board depends on its name and its inode. -/
theorem boardText_congr (hname : d'.names p = d.names p)
    (hinode : ∀ j, d.names p = some (.file j) → d'.inodes j = d.inodes j) :
    boardText d' p = boardText d p := by
  unfold boardText Disk.fileAt
  rw [hname]
  cases hp : d.names p with
  | none => rfl
  | some node =>
      cases node with
      | file j =>
          show (d'.inodes j).content = (d.inodes j).content
          rw [hinode j hp]
      | dir => rfl
      | special => rfl

/-- The boards in other files stay. -/
theorem Effect.text_ne (h : Effect su d d' q i) (hd : d.Sound) (hp : p ≠ q) :
    boardText d' p = boardText d p := by
  refine boardText_congr (h.names p hp) fun j hj => ?_
  exact h.inodes j (hd.used p j hj) fun heq => h.other p hp (heq ▸ hj)

/-- When only an inode without a name changes, all boards stay. -/
theorem Effect.text_free (h : Effect su d d' q i) (hd : d.Sound) (hnames : d'.names = d.names)
    (hfree : d.Unnamed i) : boardText d' p = boardText d p := by
  refine boardText_congr (by rw [hnames]) fun j hj => ?_
  exact h.inodes j (hd.used p j hj) fun heq => hfree p (heq ▸ hj)

/-- What holds of a thread that has another inode still holds. -/
theorem Effect.good (h : Effect su d d' q i) {u : Thread} (hu : Good su d u)
    (hheld : u.held ≠ some i) : Good su d' u := by
  have hkept : ∀ j, u.held = some j → j < d.next →
      d'.inodes j = d.inodes j ∧ j < d'.next ∧ j ≠ i := by
    intro j hj hlt
    have hne : j ≠ i := fun heq => hheld (heq ▸ hj)
    exact ⟨h.inodes j hlt hne, Nat.lt_of_lt_of_le hlt h.next, hne⟩
  have hunnamed : ∀ j, j ≠ i → d.Unnamed j → d'.Unnamed j := by
    intro j hne hj p hp
    by_cases hpq : p = q
    · subst hpq
      rcases h.name with hsame | ⟨hnew, -⟩
      · exact hj p (hsame ▸ hp)
      · rw [hnew] at hp
        simp only [Option.some.injEq, Node.file.injEq] at hp
        exact hne hp.symm
    · exact hj p (h.names p hpq ▸ hp)
  unfold Good at hu ⊢
  cases hpc : u.pc with
  | writev j w =>
      rw [hpc] at hu
      obtain ⟨hedit, hlt, hempty, hplace⟩ := hu
      obtain ⟨hsame, hlt', hne⟩ := hkept j (by rw [Thread.held, hpc]) hlt
      refine ⟨hedit, hlt', by rw [hsame]; exact hempty, ?_⟩
      split_ifs at hplace ⊢ with hrename
      · exact hunnamed j hne hplace
      · by_cases hpq : su.path u = q
        · rcases h.name with hkeep | ⟨-, hren | hnone⟩
          · rw [hpq, hkeep, ← hpq]
            exact hplace
          · exact absurd hren hrename
          · rw [hpq, hnone] at hplace
            exact absurd hplace (by simp)
        · rw [h.names _ hpq]
          exact hplace
  | rename j w =>
      rw [hpc] at hu
      obtain ⟨hedit, hlt, hbytes, hfree, hrename⟩ := hu
      obtain ⟨hsame, hlt', hne⟩ := hkept j (by rw [Thread.held, hpc]) hlt
      exact ⟨hedit, hlt', by rw [hsame]; exact hbytes, hunnamed j hne hfree, hrename⟩
  | _ =>
      rw [hpc] at hu
      exact hu

/-! ## The step of one thread -/

/-- The thread is an update of a board. -/
def Thread.IsUpdate (t : Thread) : Prop := ∃ board e, t.req = .update board e

/-- The thread goes on to a point where it holds no inode and has not written. -/
structure Rests (su : Setup) (d : Disk) (t t' : Thread) : Prop where
  req : t'.req = t.req
  held : t'.held = none
  good : Good su d t'
  applied : t.IsUpdate → ¬ t'.Applied

/-- What the step of a thread on boards does to the disk and to the thread: it leaves the disk
alone, returns from the request, writes a new file that has no name yet, truncates the board, or
puts the new text in place. -/
inductive Moved (su : Setup) (d : Disk) (t : Thread) (io : Io) : Disk → Thread → Prop where
  | rests {t' : Thread} (h : Rests su d t t') (before : ¬ t.Applied)
      (place : ∀ p, ¬ InPlace su p t) : Moved su d t io d t'
  | returns (before : t.pc = .flush) : Moved su d t io d (t.finish 0)
  | aside {d' : Disk} {t' : Thread} {i : Nat} (hrename : su.cfg.rename = true)
      (effect : Effect su d d' (su.path t) i) (same : d'.names = d.names)
      (free : d.Unnamed i) (inode : t.held = some i ∨ i = d.next) (req : t'.req = t.req)
      (held : t'.held = none ∨ t'.held = some i) (good : Good su d' t') (before : ¬ t.Applied)
      (after : ¬ t'.Applied) : Moved su d t io d' t'
  | truncates {d' : Disk} {w : Write} {i : Nat} (hrename : su.cfg.rename = false)
      (effect : Effect su d d' (su.path t) i)
      (inode : i = d.next ∨ d.names (su.path t) = some (.file i)) (before : t.pc = .openWrite w)
      (ok : io.failed = none) (good : Good su d' (t.goto (.writev i w))) :
      Moved su d t io d' (t.goto (.writev i w))
  | writes {d' : Disk} {w : Write} {i : Nat} (held : t.held = some i) (hedit : Edited su t w)
      (effect : Effect su d d' (su.path t) i)
      (before : (su.cfg.rename = true ∧ t.pc = .rename i w ∧ io.failed = none) ∨
        su.cfg.rename = false ∧ t.pc = .writev i w)
      (text : boardText d' (su.path t) = payload true w.bytes) :
      Moved su d t io d' (t.goto .flush)

variable {s : Server} {t t' : Thread} {io : Io}

@[simp] theorem Thread.goto_req (t : Thread) (pc : Pc) : (t.goto pc).req = t.req := rfl
@[simp] theorem Thread.goto_pc (t : Thread) (pc : Pc) : (t.goto pc).pc = pc := rfl
@[simp] theorem Thread.goto_text (t : Thread) (pc : Pc) : (t.goto pc).text = t.text := rfl
@[simp] theorem Thread.goto_time (t : Thread) (pc : Pc) : (t.goto pc).time = t.time := rfl

@[simp] theorem Setup.path_goto (su : Setup) (t : Thread) (pc : Pc) :
    su.path (t.goto pc) = su.path t := rfl

/-- A return with an error. -/
theorem rests_finish (su : Setup) (d : Disk) (t : Thread) {status : Int} (h : status ≠ 0) :
    Rests su d t (t.finish status) :=
  ⟨rfl, rfl, trivial, fun _ => h⟩

/-- `NfsReadFile` returns. -/
theorem rests_readDone (su : Setup) (d : Disk) (t : Thread) (got : Except Int Bytes) :
    Rests su d t (t.readDone got) := by
  unfold Thread.readDone
  split
  · exact ⟨rfl, rfl, trivial, fun _ h => h⟩
  · rename_i hno
    exact ⟨rfl, rfl, trivial, fun ⟨board, e, he⟩ => absurd he (hno board e)⟩
  · rename_i hno
    exact ⟨rfl, rfl, trivial, fun ⟨board, e, he⟩ => absurd he (hno board e)⟩

theorem rests_looked (su : Setup) (d : Disk) (t : Thread) (st : Stat) (l : Looked) :
    Rests su d t (t.looked st l) := by
  cases l with
  | hit f => exact rests_readDone su d t _
  | fill id => exact ⟨rfl, rfl, trivial, fun _ h => h⟩
  | wait => exact ⟨rfl, rfl, trivial, fun _ h => h⟩

theorem rests_filled (su : Setup) (d : Disk) (t : Thread) (result : Except Int Cached) :
    Rests su d t (t.filled result) := by
  cases result with
  | ok f => exact rests_readDone su d t _
  | error err => exact rests_readDone su d t _

/-- An edit that succeeds is what will be written. -/
theorem rests_proceed (su : Setup) (d : Disk) {t : Thread} {board : Bytes} {e : Cb.Edit}
    (hreq : t.req = .update board e) (now : Int) (ds : Bytes) :
    Rests su d t (t.proceed su e now ds) := by
  unfold Thread.proceed
  split
  · exact rests_finish su d t (by decide)
  · rename_i text htext
    exact ⟨rfl, rfl, ⟨rfl, rfl, board, e, hreq, htext⟩, fun _ h => h⟩

theorem rests_edited (su : Setup) (d : Disk) {t : Thread} {board : Bytes} {e : Cb.Edit}
    (hreq : t.req = .update board e) (got : Except Int Bytes) (now : Int) :
    Rests su d t (t.edited su e got now) := by
  cases got with
  | ok ds => exact rests_proceed su d hreq now ds
  | error err =>
      unfold Thread.edited
      dsimp only
      split_ifs with hnone
      · exact rests_proceed su d hreq now []
      · exact rests_finish su d t fun h => hnone (Or.inl h)

/-- A point at which a thread neither writes nor has written. -/
theorem moved_rests {pc : Pc} (hpc : t.pc = pc) (h : Rests su d t t')
    (hna : ¬ t.Applied) (hw : ∀ i w, pc ≠ .writev i w) : Moved su d t io d t' := by
  refine .rests h hna ?_
  rintro p ⟨-, -, i, w, hplace⟩
  exact hw i w (hpc.symm.trans hplace)

/-- A new inode has no name. -/
theorem Disk.Sound.unnamed_next (hd : d.Sound) : d.Unnamed d.next := by
  intro p hp
  exact absurd (hd.used p _ hp) (lt_irrefl _)

@[simp] theorem Disk.create_next (d : Disk) (now : Int) : (d.create now).1.next = d.next + 1 := rfl
@[simp] theorem Disk.create_inode (d : Disk) (now : Int) : (d.create now).2 = d.next := rfl
@[simp] theorem Disk.create_names (d : Disk) (now : Int) : (d.create now).1.names = d.names := rfl
@[simp] theorem Disk.setName_inodes (d : Disk) (path : Bytes) (n : Option Node) :
    (d.setName path n).inodes = d.inodes := rfl
@[simp] theorem Disk.setName_next (d : Disk) (path : Bytes) (n : Option Node) :
    (d.setName path n).next = d.next := rfl
@[simp] theorem Disk.setInode_next (d : Disk) (i : Nat) (f : Inode) :
    (d.setInode i f).next = d.next := rfl

@[simp] theorem Disk.setName_same (d : Disk) (path : Bytes) (n : Option Node) :
    (d.setName path n).names path = n := if_pos rfl

@[simp] theorem Disk.setInode_same (d : Disk) (i : Nat) (f : Inode) :
    (d.setInode i f).inodes i = f := if_pos rfl

theorem Disk.setInode_ne (d : Disk) {i j : Nat} (f : Inode) (h : j ≠ i) :
    (d.setInode i f).inodes j = d.inodes j := if_neg h

/-- The new inode is empty, and the others stay. -/
theorem Disk.create_new (d : Disk) (now : Int) :
    ((d.create now).1.inodes d.next).content = [] := by
  show ((d.setInode d.next ⟨[], now⟩).inodes d.next).content = []
  rw [d.setInode_same]

theorem Disk.create_ne (d : Disk) (now : Int) {j : Nat} (h : j ≠ d.next) :
    (d.create now).1.inodes j = d.inodes j := d.setInode_ne _ h

/-- The text of a board by the inode of its file. -/
theorem boardText_file {i : Nat} (h : d.names p = some (.file i)) :
    boardText d p = (d.inodes i).content := by
  simp [boardText, Disk.fileAt, h]

/-- What `writev` leaves in an empty file. -/
theorem writeBytes_empty (d : Disk) (mode : WriteMode) {i : Nat} (bs : Bytes) (now : Int)
    (h : (d.inodes i).content = []) : ((writeBytes d mode i bs now).inodes i).content = bs := by
  unfold writeBytes
  split_ifs with hnil hmode
  · rw [h, hnil]
  · simp [h]
  · simp [h]

theorem writeBytes_ne (d : Disk) (mode : WriteMode) {i j : Nat} (bs : Bytes) (now : Int)
    (h : j ≠ i) : (writeBytes d mode i bs now).inodes j = d.inodes j := by
  unfold writeBytes
  split_ifs
  · rfl
  · exact d.setInode_ne _ h
  · exact d.setInode_ne _ h

@[simp] theorem writeBytes_next (d : Disk) (mode : WriteMode) (i : Nat) (bs : Bytes) (now : Int) :
    (writeBytes d mode i bs now).next = d.next := by
  unfold writeBytes
  split_ifs
  · rfl
  · rfl
  · rfl

/-- A write to an inode of which only the file `q` may be the name. -/
theorem effect_writeBytes (su : Setup) (d : Disk) (mode : WriteMode) {i : Nat} (bs : Bytes)
    (now : Int) (hi : i < d.next) (h : ∀ p ≠ q, d.names p ≠ some (.file i)) :
    Effect su d (writeBytes d mode i bs now) q i where
  next := by simp
  used := by simpa using hi
  inodes j _ hne := writeBytes_ne d mode bs now hne
  names p _ := by simp
  name := by simp
  other := h

/-- The open of a write: a new file without a name, or the truncation of the board. -/
theorem moved_openWrite (hd : d.Sound) {w : Write} (hpc : t.pc = .openWrite w)
    (hedit : Edited su t w) (hok : io.failed = none)
    (hopen : openWrite d (su.cfg.mode w.append) (su.path t) io.now = some (d', i)) :
    Moved su d t io d' (t.goto (.writev i w)) := by
  have happend : w.append = false := hedit.2.1
  have hna : ¬ t.Applied := by simp [Thread.Applied, hpc]
  rw [happend] at hopen
  by_cases hrename : su.cfg.rename = true
  · have hmode : su.cfg.mode false = .rename := by simp [Config.mode, hrename]
    rw [hmode] at hopen
    obtain ⟨rfl, rfl⟩ : (d.create io.now).1 = d' ∧ d.next = i := by
      simpa [openWrite, Prod.ext_iff] using hopen
    refine .aside hrename ⟨by simp, by simp, fun j _ hne => d.create_ne io.now hne, by simp,
      by simp, fun p _ => hd.unnamed_next p⟩ rfl hd.unnamed_next (Or.inr rfl) rfl (Or.inr rfl)
      ⟨hedit, by simp, d.create_new io.now, ?_⟩ hna (fun h => h)
    rw [if_pos hrename]
    exact hd.unnamed_next
  · rw [Bool.not_eq_true] at hrename
    have hmode : su.cfg.mode false = .trunc := by simp [Config.mode, hrename]
    have hplace : ¬ su.cfg.rename = true := by simp [hrename]
    rw [hmode] at hopen
    cases hname : d.names (su.path t) with
    | none =>
        -- there was no file: a new one gets the name
        obtain ⟨rfl, rfl⟩ : (d.create io.now).1.setName (su.path t) (some (.file d.next)) = d' ∧
            d.next = i := by
          simpa [openWrite, hname, Prod.ext_iff] using hopen
        refine .truncates hrename ⟨by simp, by simp, fun j _ hne => d.create_ne io.now hne,
          fun p hp => Disk.names_setName_ne _ _ hp, Or.inr ⟨by simp, Or.inr hname⟩,
          fun p _ => hd.unnamed_next p⟩ (Or.inl rfl) hpc hok
          ⟨hedit, by simp, d.create_new io.now, ?_⟩
        rw [if_neg hplace]
        simp
    | some node =>
        cases node with
        | file j =>
            obtain ⟨rfl, rfl⟩ : d.setInode j ⟨[], io.now⟩ = d' ∧ j = i := by
              simpa [openWrite, hname, Prod.ext_iff] using hopen
            have hlt : j < d.next := hd.used _ _ hname
            refine .truncates hrename ⟨by simp, by simpa using hlt,
              fun k _ hne => d.setInode_ne _ hne, by simp, by simp,
              fun p hp heq => hp (hd.one _ _ _ heq hname)⟩ (Or.inr hname) hpc hok
              ⟨hedit, by simpa using hlt, by simp, ?_⟩
            rw [if_neg hplace]
            simpa using hname
        | dir => simp [openWrite, hname] at hopen
        | special => simp [openWrite, hname] at hopen

/-- The `writev` of a write. -/
theorem moved_writev (hd : d.Sound) {w : Write} (hpc : t.pc = .writev i w)
    (hgood : Good su d t) (bs : Bytes) (hbs : bs = payload w.nl w.bytes) :
    Moved su d t io (writeBytes d (su.cfg.mode w.append) i bs io.now)
      (t.goto (if su.cfg.mode w.append = .rename then .rename i w else .flush)) := by
  have hna : ¬ t.Applied := by simp [Thread.Applied, hpc]
  have hheld : t.held = some i := by rw [Thread.held, hpc]
  unfold Good at hgood
  rw [hpc] at hgood
  obtain ⟨hedit, hlt, hempty, hplace⟩ := hgood
  obtain ⟨hnl, happend, -⟩ := id hedit
  have htext := writeBytes_empty d (su.cfg.mode w.append) bs io.now hempty
  by_cases hrename : su.cfg.rename = true
  · have hmode : su.cfg.mode w.append = .rename := by simp [Config.mode, happend, hrename]
    rw [if_pos hrename] at hplace
    have heff := effect_writeBytes (q := su.path t) su d (su.cfg.mode w.append) bs io.now hlt
      fun p _ => hplace p
    rw [if_pos hmode]
    refine .aside hrename heff (by simp) hplace (Or.inl hheld) rfl (Or.inr rfl)
      ⟨hedit, by simpa using hlt, ?_, fun p => by simpa using hplace p, hrename⟩ hna (fun h => h)
    rw [htext, hbs, hnl]
  · rw [Bool.not_eq_true] at hrename
    have hmode : su.cfg.mode w.append ≠ .rename := by simp [Config.mode, happend, hrename]
    have hplace' : ¬ su.cfg.rename = true := by simp [hrename]
    rw [if_neg hplace'] at hplace
    have heff := effect_writeBytes (q := su.path t) su d (su.cfg.mode w.append) bs io.now hlt
      fun p hp heq => hp (hd.one _ _ _ heq hplace)
    rw [if_neg hmode]
    refine .writes hheld hedit heff (Or.inr ⟨hrename, hpc⟩) ?_
    have hname : (writeBytes d (su.cfg.mode w.append) i bs io.now).names (su.path t) =
        some (.file i) := by simpa using hplace
    rw [boardText_file hname, htext, hbs, hnl]

/-- A `writev` that is cut short in a new file. -/
theorem moved_short {w : Write} (hpc : t.pc = .writev i w) (hrename : su.cfg.rename = true)
    (hgood : Good su d t) (bs : Bytes) (errno : Errno) :
    Moved su d t io (writeBytes d (su.cfg.mode w.append) i bs io.now) (t.finish errno) := by
  have hna : ¬ t.Applied := by simp [Thread.Applied, hpc]
  have hheld : t.held = some i := by rw [Thread.held, hpc]
  unfold Good at hgood
  rw [hpc] at hgood
  obtain ⟨-, hlt, -, hplace⟩ := hgood
  rw [if_pos hrename] at hplace
  have herr : (errno : Int) ≠ 0 := by have := errno.2; omega
  exact .aside hrename (effect_writeBytes su d _ bs io.now hlt fun p _ => hplace p) (by simp)
    hplace (Or.inl hheld) rfl (Or.inl rfl) trivial hna herr

/-- **The step of a thread on boards is one of `Moved`**, when no `writev` in place is cut short. -/
theorem moved_of_advance (hd : s.disk.Sound) (hgood : Good su s.disk t)
    (hshort : ∀ i w, t.pc = .writev i w → su.cfg.rename = false → io.short = none)
    {s' : Server} (h : advance su s t io = some (s', t')) :
    Moved su s.disk t io s'.disk t' := by
  unfold advance at h
  dsimp only at h
  cases hpc : t.pc with
  | stat =>
      rw [hpc] at h
      obtain ⟨rfl, rfl⟩ := Prod.mk.inj (Option.some.inj h)
      refine moved_rests hpc ?_ (by simp [Thread.Applied, hpc]) (by simp)
      split
      · exact rests_readDone _ _ _ _
      · exact rests_readDone _ _ _ _
      · exact ⟨rfl, rfl, trivial, fun _ h => h⟩
  | look st =>
      rw [hpc] at h
      obtain ⟨rfl, rfl⟩ := Prod.mk.inj (Option.some.inj h)
      exact moved_rests hpc (rests_looked _ _ _ _ _) (by simp [Thread.Applied, hpc]) (by simp)
  | wait st =>
      rw [hpc] at h
      dsimp only at h
      split at h
      · obtain ⟨rfl, rfl⟩ := Prod.mk.inj (Option.some.inj h)
        exact moved_rests hpc (rests_readDone _ _ _ _) (by simp [Thread.Applied, hpc]) (by simp)
      · obtain ⟨rfl, rfl⟩ := Prod.mk.inj (Option.some.inj h)
        exact moved_rests hpc (rests_looked _ _ _ _ _) (by simp [Thread.Applied, hpc]) (by simp)
  | openRead st id =>
      rw [hpc] at h
      obtain ⟨rfl, rfl⟩ := Prod.mk.inj (Option.some.inj h)
      refine moved_rests hpc ?_ (by simp [Thread.Applied, hpc]) (by simp)
      split <;> exact ⟨rfl, rfl, trivial, fun _ h => h⟩
  | read st id i trys =>
      rw [hpc] at h
      obtain ⟨rfl, rfl⟩ := Prod.mk.inj (Option.some.inj h)
      refine moved_rests hpc ?_ (by simp [Thread.Applied, hpc]) (by simp)
      split
      · exact ⟨rfl, rfl, trivial, fun _ h => h⟩
      · split_ifs <;> exact ⟨rfl, rfl, trivial, fun _ h => h⟩
  | fstat id i trys =>
      rw [hpc] at h
      obtain ⟨rfl, rfl⟩ := Prod.mk.inj (Option.some.inj h)
      refine moved_rests hpc ?_ (by simp [Thread.Applied, hpc]) (by simp)
      split
      · exact ⟨rfl, rfl, trivial, fun _ h => h⟩
      · split_ifs <;> exact ⟨rfl, rfl, trivial, fun _ h => h⟩
  | fill id result =>
      rw [hpc] at h
      obtain ⟨rfl, rfl⟩ := Prod.mk.inj (Option.some.inj h)
      exact moved_rests hpc (rests_filled _ _ _ _) (by simp [Thread.Applied, hpc]) (by simp)
  | edit got =>
      rw [hpc] at h
      dsimp only at h
      split at h
      · rename_i board e hreq
        obtain ⟨rfl, rfl⟩ := Prod.mk.inj (Option.some.inj h)
        exact moved_rests hpc (rests_edited _ _ hreq _ _) (by simp [Thread.Applied, hpc]) (by simp)
      · exact absurd h (by simp)
  | openWrite w =>
      have hedit : Edited su t w := by simpa only [Good, hpc] using hgood
      have hna : ¬ t.Applied := by simp [Thread.Applied, hpc]
      rw [hpc] at h
      dsimp only at h
      split_ifs at h with hdirs
      · obtain ⟨rfl, rfl⟩ := Prod.mk.inj (Option.some.inj h)
        exact moved_rests hpc (rests_finish _ _ _ (by decide)) hna (by simp)
      · split at h
        · rename_i errno _
          have herr : (errno : Int) ≠ 0 := by have := errno.2; omega
          obtain ⟨rfl, rfl⟩ := Prod.mk.inj (Option.some.inj h)
          exact moved_rests hpc (rests_finish _ _ _ herr) hna (by simp)
        · obtain ⟨rfl, rfl⟩ := Prod.mk.inj (Option.some.inj h)
          exact moved_rests hpc (rests_finish _ _ _ (by decide)) hna (by simp)
        · rename_i d' i hok hopen
          obtain ⟨rfl, rfl⟩ := Prod.mk.inj (Option.some.inj h)
          exact moved_openWrite hd hpc hedit hok hopen
  | writev i w =>
      rw [hpc] at h
      dsimp only at h
      split at h
      · rename_i n errno hio
        obtain ⟨rfl, rfl⟩ := Prod.mk.inj (Option.some.inj h)
        have hrename : su.cfg.rename = true := by
          by_contra hno
          rw [hshort i w hpc (by simpa using hno)] at hio
          exact absurd hio (by simp)
        exact moved_short hpc hrename hgood _ errno
      · obtain ⟨rfl, rfl⟩ := Prod.mk.inj (Option.some.inj h)
        exact moved_writev hd hpc hgood _ rfl
  | rename i w =>
      have hna : ¬ t.Applied := by simp [Thread.Applied, hpc]
      rw [hpc] at h
      dsimp only at h
      split at h
      · obtain ⟨rfl, rfl⟩ := Prod.mk.inj (Option.some.inj h)
        exact moved_rests hpc (rests_finish _ _ _ (by decide)) hna (by simp)
      · obtain ⟨rfl, rfl⟩ := Prod.mk.inj (Option.some.inj h)
        exact moved_rests hpc (rests_finish _ _ _ (by decide)) hna (by simp)
      · rename_i hok _
        obtain ⟨rfl, rfl⟩ := Prod.mk.inj (Option.some.inj h)
        unfold Good at hgood
        rw [hpc] at hgood
        obtain ⟨hedit, hlt, hbytes, hfree, hrename⟩ := hgood
        refine .writes (by rw [Thread.held, hpc]) hedit ⟨by simp, by simpa using hlt, by simp,
          fun p hp => Disk.names_setName_ne _ _ hp, Or.inr ⟨by simp, Or.inl hrename⟩,
          fun p _ => hfree p⟩ (Or.inl ⟨hrename, hpc, hok⟩) ?_
        show boardText (s.disk.setName (su.path t) (some (.file i))) (su.path t) = _
        rw [boardText_file (s.disk.setName_same _ _)]
        exact hbytes
  | unlink =>
      unfold Good at hgood
      rw [hpc] at hgood
      exact hgood.elim
  | flush =>
      rw [hpc] at h
      obtain ⟨rfl, rfl⟩ := Prod.mk.inj (Option.some.inj h)
      exact .returns hpc
  | done status out =>
      rw [hpc] at h
      exact absurd h (by simp)

/-! ## Runs -/

/-- What holds of the threads of a run of reads and updates: each knows the inode it writes, and no
two write one. -/
structure Apart (su : Setup) (d : Disk) (threads : List Thread) : Prop where
  sound : d.Sound
  good : ∀ (n : Nat) (t : Thread), threads[n]? = some t → Good su d t
  apart : ∀ (n m : Nat) (t u : Thread) (i : Nat), threads[n]? = some t → threads[m]? = some u →
    t.held = some i → u.held = some i → n = m

/-- The invariant of a run of reads and updates, for the board in the file `p`. -/
structure BoardInv (su : Setup) (p text : Bytes) (s : State) : Prop where
  apart : Apart su s.server.disk s.threads
  order : ∃ log, InOrder su p text s log

section Move

variable {st : State} {n : Nat} {text : Bytes} {log : List Entry}

/-- The threads behind a step of one of them. -/
theorem threads_set {l : List Thread} {m : Nat} {u : Thread} (hn : l[n]? = some t)
    (hm : (l.set n t')[m]? = some u) : m = n ∧ u = t' ∨ m ≠ n ∧ l[m]? = some u := by
  obtain ⟨hlt, -⟩ := List.getElem?_eq_some_iff.mp hn
  rw [List.getElem?_set] at hm
  split_ifs at hm with hnm
  · exact Or.inl ⟨hnm.symm, (Option.some.inj hm).symm⟩
  · exact Or.inr ⟨fun heq => hnm heq.symm, hm⟩

theorem threads_set_self {l : List Thread} (hn : l[n]? = some t) :
    (l.set n t')[n]? = some t' := by
  obtain ⟨hlt, -⟩ := List.getElem?_eq_some_iff.mp hn
  rw [List.getElem?_set, if_pos rfl, if_pos hlt]

theorem threads_set_ne {l : List Thread} {m : Nat} (hm : m ≠ n) :
    (l.set n t')[m]? = l[m]? := by
  rw [List.getElem?_set, if_neg fun h => hm h.symm]

/-- A thread that holds no inode takes the place of one. -/
theorem Apart.keep {threads : List Thread} (h : Apart su d threads) (hn : threads[n]? = some t)
    (hgood : Good su d t') (hheld : t'.held = none) : Apart su d (threads.set n t') := by
  refine ⟨h.sound, ?_, ?_⟩
  · intro m u hu
    rcases threads_set hn hu with ⟨-, rfl⟩ | ⟨-, hu⟩
    · exact hgood
    · exact h.good m u hu
  · intro m k u v j hm hk hu hv
    rcases threads_set hn hm with ⟨-, rfl⟩ | ⟨-, hm⟩
    · exact absurd (hheld.symm.trans hu) (by simp)
    · rcases threads_set hn hk with ⟨-, rfl⟩ | ⟨-, hk⟩
      · exact absurd (hheld.symm.trans hv) (by simp)
      · exact h.apart m k u v j hm hk hu hv

/-- A thread changes an inode that no other thread writes. -/
theorem Apart.effect {threads : List Thread} (h : Apart su d threads) (hn : threads[n]? = some t)
    (heff : Effect su d d' q i) (hgood : Good su d' t') (hheld : ∀ j, t'.held = some j → j = i)
    (hothers : ∀ (m : Nat) (u : Thread), m ≠ n → threads[m]? = some u → u.held ≠ some i) :
    Apart su d' (threads.set n t') := by
  refine ⟨heff.sound h.sound, ?_, ?_⟩
  · intro m u hu
    rcases threads_set hn hu with ⟨-, rfl⟩ | ⟨hne, hu⟩
    · exact hgood
    · exact heff.good (h.good m u hu) (hothers m u hne hu)
  · intro m k u v j hm hk hu hv
    rcases threads_set hn hm with ⟨rfl, rfl⟩ | ⟨hmn, hm'⟩
    · rcases threads_set hn hk with ⟨rfl, -⟩ | ⟨hkn, hk'⟩
      · rfl
      · exact absurd (hheld j hu ▸ hv) (hothers k v hkn hk')
    · rcases threads_set hn hk with ⟨-, rfl⟩ | ⟨-, hk'⟩
      · exact absurd (hheld j hv ▸ hu) (hothers m u hmn hm')
      · exact h.apart m k u v j hm' hk' hu hv

/-- No other thread writes the inode a thread writes. -/
theorem Apart.others {threads : List Thread} (h : Apart su d threads) (hn : threads[n]? = some t)
    (hheld : t.held = some i) (m : Nat) (u : Thread) (hm : m ≠ n) (hu : threads[m]? = some u) :
    u.held ≠ some i := fun hui => hm (h.apart m n u t i hu hn hui hheld)

/-- The inode of a thread is in use. -/
theorem Good.held_lt (h : Good su d t) (hheld : t.held = some i) : i < d.next := by
  unfold Good at h
  unfold Thread.held at hheld
  split at hheld
  · rename_i j w hpc
    rw [hpc] at h
    obtain rfl := Option.some.inj hheld
    exact h.2.1
  · rename_i j w hpc
    rw [hpc] at h
    obtain rfl := Option.some.inj hheld
    exact h.2.1
  · exact absurd hheld (by simp)

/-- A thread in the middle of a write in place holds the file. -/
theorem Good.inPlace (h : Good su d t) (hplace : InPlace su p t) :
    ∃ i, t.held = some i ∧ d.names p = some (.file i) := by
  obtain ⟨hrename, rfl, i, w, hpc⟩ := hplace
  unfold Good at h
  rw [hpc] at h
  obtain ⟨-, -, -, hname⟩ := h
  rw [if_neg (by simp [hrename])] at hname
  exact ⟨i, by rw [Thread.held, hpc], hname⟩

/-- A thread of another file that holds an inode a file has as its own is one in place. -/
theorem Good.held_named (h : Good su d t) (hd : d.Sound) (hheld : t.held = some i)
    (hname : d.names p = some (.file i)) : InPlace su p t := by
  unfold Good at h
  unfold Thread.held at hheld
  split at hheld
  · rename_i j w hpc
    rw [hpc] at h
    obtain rfl := Option.some.inj hheld
    obtain ⟨-, -, -, hplace⟩ := h
    split_ifs at hplace with hrename
    · exact absurd hname (hplace p)
    · exact ⟨by simpa using hrename, hd.one _ _ _ hplace hname, j, w, hpc⟩
  · rename_i j w hpc
    rw [hpc] at h
    obtain rfl := Option.some.inj hheld
    obtain ⟨-, -, -, hfree, -⟩ := h
    exact absurd hname (hfree p)
  · exact absurd hheld (by simp)

/-- A thread is on the file its request is about. -/
theorem path_of_req (su : Setup) (h : t'.req = t.req) : su.path t' = su.path t := by
  rw [Setup.path, h, Setup.path]

/-- **A step that leaves the text of the board alone, and in which no update writes.** -/
theorem InOrder.frame (h : InOrder su p text st log) (hn : st.threads[n]? = some t)
    (hreq : t'.req = t.req) (happ : t.IsUpdate → su.path t = p →
      (t'.Applied ↔ t.Applied) ∧ (t.Applied → t'.time = t.time))
    (hplace : ¬ InPlace su p t) (hplace' : ¬ InPlace su p t') {server : Server} {stray : Bool}
    (htext : boardText server.disk p = boardText st.server.disk p) :
    InOrder su p text { server := server, threads := st.threads.set n t', stray := stray } log where
  once := h.once
  entry := by
    intro e he
    obtain ⟨u, board, hu, hpath, hu', htime, hua⟩ := h.entry e he
    by_cases hen : e.thread = n
    · rw [hen] at hu ⊢
      obtain rfl : u = t := Option.some.inj (hu.symm.trans hn)
      obtain ⟨happ, hsame⟩ := happ ⟨board, e.edit, hu'⟩ hpath
      exact ⟨t', board, threads_set_self hn, (path_of_req su hreq).trans hpath, hreq.trans hu',
        (hsame hua).trans htime, happ.mpr hua⟩
    · exact ⟨u, board, (threads_set_ne hen).trans hu, hpath, hu', htime, hua⟩
  all := by
    intro m u hu hup hua
    rcases threads_set hn hu with ⟨rfl, rfl⟩ | ⟨hm, hu⟩
    · obtain ⟨hpath, board, e, he⟩ := hup
      have hpath' : su.path t = p := (path_of_req su hreq).symm.trans hpath
      have hreq' : t.req = .update board e := hreq.symm.trans he
      exact h.all m t hn ⟨hpath', board, e, hreq'⟩ ((happ ⟨board, e, hreq'⟩ hpath').1.mp hua)
    · exact h.all m u hu hup hua
  result := by
    obtain ⟨board, hboard, hmid, hrest⟩ := h.result
    refine ⟨board, hboard, ?_, ?_⟩
    · intro m u hu hin
      rcases threads_set hn hu with ⟨rfl, rfl⟩ | ⟨-, hu⟩
      · exact absurd hin hplace'
      · exact hmid m u hu hin
    · intro hno
      rw [htext]
      refine hrest fun u hu hin => ?_
      obtain ⟨m, hm⟩ := List.mem_iff_getElem?.mp hu
      by_cases hmn : m = n
      · obtain rfl : u = t := by rw [hmn, hn] at hm; exact (Option.some.inj hm).symm
        exact hplace hin
      · exact hno u (List.mem_iff_getElem?.mpr ⟨m, (threads_set_ne hmn).trans hm⟩) hin

/-- **The truncation of a board** by an update that has read what is truncated. -/
theorem InOrder.truncate (h : InOrder su p text st log) (hn : st.threads[n]? = some t)
    (hreq : t'.req = t.req) (hna : ¬ t.Applied) (hna' : ¬ t'.Applied)
    (hfresh : t'.text = strip (boardText st.server.disk p))
    (halone : ∀ u ∈ st.threads, ¬ InPlace su p u) (hplace : InPlace su p t')
    {server : Server} {stray : Bool} :
    InOrder su p text { server := server, threads := st.threads.set n t', stray := stray } log where
  once := h.once
  entry := by
    intro e he
    obtain ⟨u, board, hu, hrest⟩ := h.entry e he
    have hen : e.thread ≠ n := by
      intro hen
      rw [hen, hn] at hu
      obtain rfl := Option.some.inj hu
      exact hna hrest.2.2.2
    exact ⟨u, board, (threads_set_ne hen).trans hu, hrest⟩
  all := by
    intro m u hu hup hua
    rcases threads_set hn hu with ⟨rfl, rfl⟩ | ⟨-, hu⟩
    · exact absurd hua hna'
    · exact h.all m u hu hup hua
  result := by
    obtain ⟨board, hboard, hmid, hrest⟩ := h.result
    refine ⟨board, hboard, ?_, ?_⟩
    · intro m u hu hin
      rcases threads_set hn hu with ⟨rfl, rfl⟩ | ⟨-, hu⟩
      · rw [hfresh, hrest halone]
      · exact absurd hin (halone u (List.mem_iff_getElem?.mpr ⟨m, hu⟩))
    · intro hno
      exact absurd hplace (hno t' (List.mem_iff_getElem?.mpr ⟨n, threads_set_self hn⟩))

/-- **An update writes**: it comes last in the order. -/
theorem InOrder.write (h : InOrder su p text st log) (hn : st.threads[n]? = some t)
    (hpath : su.path t = p) {w : Write} (hedit : Edited su t w) (hna : ¬ t.Applied)
    (hfresh : ∀ board, log.foldlM su.updated text = some board → t.text = strip board)
    (halone : ∀ (m : Nat) (u : Thread), m ≠ n → st.threads[m]? = some u → ¬ InPlace su p u)
    {server : Server} (stray : Bool) (htext : boardText server.disk p = payload true w.bytes) :
    ∃ e : Entry, InOrder su p text
      { server := server, threads := st.threads.set n (t.goto .flush), stray := stray }
      (log ++ [e]) := by
  obtain ⟨-, -, board, edit, hreq, happly⟩ := hedit
  have hne : ∀ e ∈ log, e.thread ≠ n := by
    intro e he hen
    obtain ⟨u, _, hu, -, -, -, hua⟩ := h.entry e he
    rw [hen, hn] at hu
    obtain rfl := Option.some.inj hu
    exact hna hua
  refine ⟨⟨n, edit, t.time⟩, ?_, ?_, ?_, ?_⟩
  · rw [List.map_append, List.nodup_append]
    refine ⟨h.once, by simp, ?_⟩
    intro m hm k hk heq
    obtain rfl : k = n := by simpa using hk
    obtain ⟨e, he, rfl⟩ := List.mem_map.mp hm
    exact hne e he heq
  · intro e he
    rcases List.mem_append.mp he with he | he
    · obtain ⟨u, b, hu, hrest⟩ := h.entry e he
      exact ⟨u, b, (threads_set_ne (hne e he)).trans hu, hrest⟩
    · obtain rfl : e = ⟨n, edit, t.time⟩ := by simpa using he
      exact ⟨t.goto .flush, board, threads_set_self hn, hpath, hreq, rfl, trivial⟩
  · intro m u hu hup hua
    rw [List.map_append]
    rcases threads_set hn hu with ⟨rfl, rfl⟩ | ⟨-, hu⟩
    · simp
    · exact List.mem_append_left _ (h.all m u hu hup hua)
  · obtain ⟨old, hold, -, -⟩ := h.result
    refine ⟨payload true w.bytes, ?_, ?_, fun _ => htext⟩
    · have hnew : su.updated old ⟨n, edit, t.time⟩ = some (payload true w.bytes) := by
        rw [Setup.updated, ← hfresh old hold, happly, Option.map_some]
      rw [List.foldlM_append, hold]
      simpa using hnew
    · intro m u hu hin
      rcases threads_set hn hu with ⟨rfl, rfl⟩ | ⟨hm, hu⟩
      · obtain ⟨-, -, i, w', hpc⟩ := hin
        exact absurd hpc (by simp)
      · exact absurd hin (halone m u hm hu)

/-- **What one step of a thread preserves.** -/
theorem BoardInv.move (h : BoardInv su p text st) (hn : st.threads[n]? = some t)
    (hsafe : SafeUpdate su st (.move n io)) {server : Server} {stray : Bool}
    (hadv : advance su st.server t io = some (server, t')) :
    BoardInv su p text { server := server, threads := st.threads.set n t', stray := stray } := by
  have hsafe := hsafe t hn
  have hgood := h.apart.good n t hn
  have hshort : ∀ i w, t.pc = .writev i w → su.cfg.rename = false → io.short = none := by
    intro i w hpc hrename
    rw [hpc] at hsafe
    exact hsafe hrename
  obtain ⟨log, hlog⟩ := h.order
  have hmoved := moved_of_advance h.apart.sound hgood hshort hadv
  generalize hdisk : server.disk = d' at hmoved
  cases hmoved with
  | rests hrests hna hplace =>
      have hplace' : ¬ InPlace su p t' := by
        rintro ⟨-, -, i, w, hpc⟩
        have hheld := hrests.held
        simp [Thread.held, hpc] at hheld
      refine ⟨hdisk ▸ h.apart.keep hn hrests.good hrests.held, log, ?_⟩
      refine hlog.frame hn hrests.req (fun hup _ => ?_) (hplace p) hplace' (by rw [hdisk])
      exact ⟨iff_of_false (hrests.applied hup) hna, fun ha => absurd ha hna⟩
  | returns hpc =>
      have hplace : ¬ InPlace su p t := by
        rintro ⟨-, -, i, w, hpc'⟩
        exact absurd (hpc.symm.trans hpc') (by simp)
      have hplace' : ¬ InPlace su p (t.finish 0) := by
        rintro ⟨-, -, i, w, hpc'⟩
        exact absurd hpc' (by simp [Thread.finish])
      have hreq : (t.finish 0).req = t.req := rfl
      refine ⟨hdisk ▸ h.apart.keep hn trivial rfl, log, ?_⟩
      refine hlog.frame hn hreq (fun _ _ => ⟨?_, fun _ => rfl⟩) hplace hplace' (by rw [hdisk])
      simp [Thread.Applied, Thread.finish, hpc]
  | @aside _ _ i hrename heff hnames hfree hinode hreq hheld hgood' hna hna' =>
      have hplace : ∀ u, ¬ InPlace su p u := by
        rintro u ⟨hno, -⟩
        exact absurd hno (by simp [hrename])
      have hothers : ∀ (m : Nat) (u : Thread), m ≠ n → st.threads[m]? = some u →
          u.held ≠ some i := by
        rcases hinode with hheld | rfl
        · exact h.apart.others hn hheld
        · intro m u _ hu hui
          exact absurd ((h.apart.good m u hu).held_lt hui) (lt_irrefl _)
      refine ⟨hdisk ▸ h.apart.effect hn heff hgood' ?_ hothers, log, ?_⟩
      · intro j hj
        rcases hheld with hnone | hsome
        · exact absurd (hnone.symm.trans hj) (by simp)
        · exact Option.some.inj (hj.symm.trans hsome)
      · refine hlog.frame hn hreq (fun _ _ => ⟨iff_of_false hna' hna, fun ha => absurd ha hna⟩)
          (hplace t) (hplace t') ?_
        rw [hdisk]
        exact heff.text_free h.apart.sound hnames hfree
  | @truncates _ w i hrename heff hinode hpc hok hgood' =>
      rw [hpc] at hsafe
      obtain ⟨hfresh, halone⟩ := hsafe hrename hok
      have hna : ¬ t.Applied := by simp [Thread.Applied, hpc]
      have hothers : ∀ (m : Nat) (u : Thread), m ≠ n → st.threads[m]? = some u →
          u.held ≠ some i := by
        intro m u _ hu hui
        rcases hinode with rfl | hname
        · exact absurd ((h.apart.good m u hu).held_lt hui) (lt_irrefl _)
        · exact halone u (List.mem_iff_getElem?.mpr ⟨m, hu⟩)
            ((h.apart.good m u hu).held_named h.apart.sound hui hname)
      have hreq : (t.goto (.writev i w)).req = t.req := rfl
      have hheld : ∀ j, (t.goto (.writev i w)).held = some j → j = i := by
        intro j hj
        exact (Option.some.inj hj).symm
      refine ⟨hdisk ▸ h.apart.effect hn heff hgood' hheld hothers, log, ?_⟩
      by_cases hp : su.path t = p
      · rw [hp] at hfresh halone
        exact hlog.truncate hn hreq hna (fun h => h) hfresh halone ⟨hrename, hp, i, w, rfl⟩
      · -- another board
        have hplace : ∀ u, su.path u = su.path t → ¬ InPlace su p u :=
          fun u hu hin => hp (hu.symm.trans hin.2.1)
        refine hlog.frame hn hreq (fun _ heq => absurd heq hp) (hplace t rfl)
          (hplace (t.goto (.writev i w)) rfl) ?_
        rw [hdisk]
        exact heff.text_ne h.apart.sound fun heq => hp heq.symm
  | @writes _ w i hheld hedit heff hpc htext =>
      have hothers := h.apart.others hn hheld
      have hna : ¬ t.Applied := by
        rcases hpc with ⟨-, hpc, -⟩ | ⟨-, hpc⟩ <;> simp [Thread.Applied, hpc]
      have hreq : (t.goto .flush).req = t.req := rfl
      have hgood' : Good su d' (t.goto .flush) := by
        obtain ⟨-, -, board, e, hreq, -⟩ := hedit
        exact ⟨board, e, hreq⟩
      have hnone : ∀ j, (t.goto .flush).held = some j → j = i := by
        intro j hj
        exact absurd hj (by simp [Thread.held])
      have hset : Apart su server.disk (st.threads.set n (t.goto .flush)) :=
        hdisk ▸ h.apart.effect hn heff hgood' hnone hothers
      by_cases hp : su.path t = p
      · have halone : ∀ (m : Nat) (u : Thread), m ≠ n → st.threads[m]? = some u →
            ¬ InPlace su p u := by
          intro m u hm hu hin
          rcases hpc with ⟨hrename, -, -⟩ | ⟨hrename, hpc⟩
          · exact absurd hin.1 (by simp [hrename])
          · -- two threads in the middle of a write in place of one file would hold one inode
            obtain ⟨j, hj, hname⟩ := (h.apart.good m u hu).inPlace hin
            obtain ⟨k, hk, hname'⟩ := hgood.inPlace (p := p) ⟨hrename, hp, i, w, hpc⟩
            obtain rfl : j = k := by simpa using hname.symm.trans hname'
            exact hm (h.apart.apart m n u t j hu hn hj hk)
        have hfresh : ∀ board, log.foldlM su.updated text = some board →
            t.text = strip board := by
          intro board hboard
          obtain ⟨board', hboard', hmid, hrest⟩ := hlog.result
          obtain rfl : board = board' := Option.some.inj (hboard.symm.trans hboard')
          rcases hpc with ⟨hrename, hpc, hok⟩ | ⟨hrename, hpc⟩
          · rw [hpc] at hsafe
            have hno : ∀ u ∈ st.threads, ¬ InPlace su p u :=
              fun u _ hin => absurd hin.1 (by simp [hrename])
            rw [hsafe hok, hp, hrest hno]
          · exact hmid n t hn ⟨hrename, hp, i, w, hpc⟩
        have htext' : boardText server.disk p = payload true w.bytes := by
          rw [hdisk, ← hp]
          exact htext
        obtain ⟨e, he⟩ := hlog.write hn hp hedit hna hfresh halone stray htext'
        exact ⟨hset, log ++ [e], he⟩
      · have hplace : ∀ u, su.path u = su.path t → ¬ InPlace su p u :=
          fun u hu hin => hp (hu.symm.trans hin.2.1)
        refine ⟨hset, log, hlog.frame hn hreq (fun _ heq => absurd heq hp) (hplace t rfl)
          (hplace (t.goto .flush) rfl) ?_⟩
        rw [hdisk]
        exact heff.text_ne h.apart.sound fun heq => hp heq.symm

end Move

/-- A request comes. -/
theorem BoardInv.start {st : State} {text : Bytes} (h : BoardInv su p text st) {req : Request}
    (hreq : req.OnBoards) :
    BoardInv su p text { st with threads := st.threads ++ [req.begin] } := by
  have hnew : ∀ (m : Nat) (u : Thread), (st.threads ++ [req.begin])[m]? = some u →
      st.threads[m]? = some u ∨ u = req.begin := by
    intro m u hu
    rw [List.getElem?_append] at hu
    split_ifs at hu with hlt
    · exact Or.inl hu
    · exact Or.inr (by simpa using List.mem_of_getElem? hu)
  have hold : ∀ (m : Nat) (u : Thread), st.threads[m]? = some u →
      (st.threads ++ [req.begin])[m]? = some u := by
    intro m u hu
    obtain ⟨hlt, -⟩ := List.getElem?_eq_some_iff.mp hu
    rw [List.getElem?_append_left hlt]
    exact hu
  have hbegin : req.begin.pc = .stat := by
    cases req with
    | read key => rfl
    | update key e => rfl
    | write key bytes nl append => exact hreq.elim
    | unlink key => exact hreq.elim
  have hheld : req.begin.held = none := by rw [Thread.held, hbegin]
  have hna : ¬ req.begin.Applied := by simp [Thread.Applied, hbegin]
  have hplace : ¬ InPlace su p req.begin := by
    rintro ⟨-, -, i, w, hpc⟩
    exact absurd (hbegin.symm.trans hpc) (by simp)
  obtain ⟨log, hlog⟩ := h.order
  refine ⟨⟨h.apart.sound, ?_, ?_⟩, log, hlog.once, ?_, ?_, ?_⟩
  · intro m u hu
    rcases hnew m u hu with hu | rfl
    · exact h.apart.good m u hu
    · rw [Good, hbegin]
      trivial
  · intro m k u v i hm hk hu hv
    rcases hnew m u hm with hm | rfl
    · rcases hnew k v hk with hk | rfl
      · exact h.apart.apart m k u v i hm hk hu hv
      · exact absurd (hheld.symm.trans hv) (by simp)
    · exact absurd (hheld.symm.trans hu) (by simp)
  · intro e he
    obtain ⟨u, board, hu, hrest⟩ := hlog.entry e he
    exact ⟨u, board, hold _ u hu, hrest⟩
  · intro m u hu hup hua
    rcases hnew m u hu with hu | rfl
    · exact hlog.all m u hu hup hua
    · exact absurd hua hna
  · obtain ⟨board, hboard, hmid, hrest⟩ := hlog.result
    refine ⟨board, hboard, ?_, ?_⟩
    · intro m u hu hin
      rcases hnew m u hu with hu | rfl
      · exact hmid m u hu hin
      · exact absurd hin hplace
    · intro hno
      exact hrest fun u hu => hno u (List.mem_append_left _ hu)

/-- What every step of a run of safe updates preserves. -/
theorem BoardInv.step {st st' : State} {text : Bytes} {e : Event} (h : BoardInv su p text st)
    (hok : e.OnBoards ∧ SafeUpdate su st e) (hstep : step su st e = some st') :
    BoardInv su p text st' := by
  obtain ⟨hboards, hsafe⟩ := hok
  cases e with
  | start req =>
      obtain rfl := Option.some.inj hstep
      exact h.start hboards
  | move n io =>
      obtain ⟨t, hn, hstep⟩ := Option.bind_eq_some_iff.mp hstep
      obtain ⟨⟨server, t'⟩, hadv, rfl⟩ := Option.map_eq_some_iff.mp hstep
      exact h.move hn hsafe hadv
  | evict id =>
      obtain rfl := Option.some.inj hstep
      obtain ⟨log, hlog⟩ := h.order
      exact ⟨h.apart, log, hlog.once, hlog.entry, hlog.all, hlog.result⟩

/-- A server without requests. -/
def idle (server : Server) : State := { server := server }

/-- One newline less at the end is still the board. -/
theorem board_strip {tcl : Cb.Tcl} {text : Bytes} (h : Cb.NumberedBoard tcl text) :
    Cb.NumberedBoard tcl (strip text) := by
  obtain ⟨posts, ⟨parts, tail, hspaced, htail, hposts, rfl⟩, hnumbered⟩ := h
  refine ⟨posts, ?_, hnumbered⟩
  unfold strip
  split_ifs with hlast
  · rcases List.eq_nil_or_concat tail with rfl | ⟨front, c, rfl⟩
    · rw [List.append_nil] at hlast
      exact absurd hlast (Cb.last_listText tcl hspaced)
    · refine ⟨parts, front, hspaced, ?_, hposts, ?_⟩
      · exact fun b hb => htail b (by simp [hb])
      · rw [List.concat_eq_append, ← List.append_assoc, List.dropLast_concat]
  · exact ⟨parts, tail, hspaced, htail, hposts, rfl⟩

theorem board_payload {tcl : Cb.Tcl} {text : Bytes} (h : Cb.NumberedBoard tcl text) :
    Cb.NumberedBoard tcl (payload true text) := by
  obtain ⟨posts, hboard, hnumbered⟩ := h
  unfold payload
  split_ifs
  · exact ⟨posts, hboard.append_white TclList.white_newline, hnumbered⟩
  · exact ⟨posts, hboard, hnumbered⟩

/-- Updates one after the other keep the numbers of a board in order. -/
theorem numbered_updated {text text' : Bytes} {log : List Entry}
    (h : Cb.NumberedBoard su.tcl text) (hlog : log.foldlM su.updated text = some text') :
    Cb.NumberedBoard su.tcl text' := by
  induction log generalizing text with
  | nil =>
      obtain rfl : text = text' := by simpa using hlog
      exact h
  | cons e log ih =>
      rw [List.foldlM_cons] at hlog
      obtain ⟨next, hnext, hrest⟩ := Option.bind_eq_some_iff.mp hlog
      obtain ⟨edited, hedited, rfl⟩ := Option.map_eq_some_iff.mp hnext
      exact ih (board_payload ((board_strip h).apply hedited)) hrest

/-- A server without files that keeps 500 posts of a board. -/
def boardSetup : Setup := ⟨plainServer, Cb.Tcl.simple, 500⟩

/-- A server with an empty root. -/
def emptyServer : Server := ⟨⟨fun _ => none, fun _ => ⟨[], 0⟩, 0⟩, Cache.empty⟩

theorem emptyServer_sound : emptyServer.disk.Sound :=
  ⟨fun _ _ h => absurd h (by simp [emptyServer]), fun _ _ _ h => absurd h (by simp [emptyServer])⟩

/-- A post. -/
def helloPost : Cb.Edit := .post (toCStr (ascii "joe")) (toCStr (ascii "hello")) (toCStr [])

/-- The post comes in two threads. The second reads the board before the first has written. -/
def overtaken : List Event :=
  List.replicate 2 (.start (.update (ascii "b") helloPost)) ++ [.move 0 {}, .move 1 {}] ++
    List.replicate 5 (.move 0 {}) ++ List.replicate 5 (.move 1 {})

/-- The post comes in two threads, and the second begins when the first has returned. -/
def inTurn : List Event :=
  List.replicate 2 (.start (.update (ascii "b") helloPost)) ++ List.replicate 6 (.move 0 {}) ++
    List.replicate 10 (.move 1 {})

/-- The request has returned 0. -/
def Thread.acknowledged (t : Thread) : Bool :=
  match t.pc with
  | .done status _ => status = 0
  | _ => false

/-- The board with one post. -/
def onePost : Bytes := ascii "0\\ 0\\ joe\\ hello\\ \\\x7b\\\x7d\n"

/-- Both posts are acknowledged, and the board is that of one of them. -/
theorem overtaken_run : ((run (step boardSetup) (idle emptyServer) overtaken).map fun s =>
    (s.threads.map fun t => (t.time, t.acknowledged), boardText s.server.disk (ascii "/nfs/b"))) =
      some ([(0, true), (0, true)], onePost) := by
  decide

/-- The requests of that run. -/
theorem overtaken_requests : ((run (step boardSetup) (idle emptyServer) overtaken).map fun s =>
    s.threads.map Thread.req) =
      some [.update (ascii "b") helloPost, .update (ascii "b") helloPost] := by
  rfl

/-- What an update does depends on no thread. -/
theorem updated_thread (su : Setup) (text : Bytes) (n m : Nat) (e : Cb.Edit) (time : Int) :
    su.updated text ⟨n, e, time⟩ = su.updated text ⟨m, e, time⟩ := rfl

/-- Two posts one after the other do not give that board. -/
theorem two_posts (n m : Nat) :
    [Entry.mk n helloPost 0, ⟨m, helloPost, 0⟩].foldlM boardSetup.updated [] ≠ some onePost := by
  have htwo : ((boardSetup.updated [] ⟨0, helloPost, 0⟩).bind fun text =>
      boardSetup.updated text ⟨0, helloPost, 0⟩) ≠ some onePost := by decide
  intro h
  simp only [List.foldlM_cons, List.foldlM_nil, updated_thread boardSetup _ n 0,
    updated_thread boardSetup _ m 0] at h
  exact htwo (by simpa using h)

end Nsdci.Nfs
