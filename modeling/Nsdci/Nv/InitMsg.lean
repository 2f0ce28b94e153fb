import Nsdci.Broadcast
import Nsdci.Nv

/-!
# The init message of a variable server (`ClientInitMsg`)

When a client has logged in to a variable server it gets all arrays in one message. The server
keeps the last message it built and builds a new one only when an array has changed since: the
flag `NV_INIT` of each array says so.
-/

namespace Nsdci.Nv

open Lib

variable {α κ : Type}

/-- `AppendReload`: a flush and a set of each entry. -/
def appendReload (order : HashOrder) (a : Array κ) : Bytes :=
  65 :: (asciz a.netname ++ (Cmd.flush.bytes ++
    (order.search (entries a.vars)).flatMap fun e => (Cmd.set e.1 e.2).bytes))

/-- The length `ClientInitMsg` gives `Dci_MsgAlloc`: `(i * 3) + (nkeys * 3) + dsize`, all `int`s. -/
def initLen (arrays : α → Array κ) (served : List α) : Int :=
  let dsize := (served.map fun name =>
    (arrays name).sizekeys + (arrays name).sizevalues + (arrays name).netname.length).sum
  let nkeys : Int := (served.map fun name => ((entries (arrays name).vars).length : Int)).sum
  int32 (served.length * 3 + nkeys * 3 + dsize)

/-- `Server`, with the arrays of its process. The init message of the arrays is short enough for
a frame. -/
structure Server (α κ : Type) where
  arrays : α → Array κ
  served : List α
  init : Option Nat
  small : (initLen arrays served).toNat + 4 < 2147483648

/-- The reload commands of all arrays of a server, in a message of the length allocated for it.
What is not written stays as `ns_malloc` left it, taken as 0 here. -/
def Server.initMsg (order : HashOrder) (d : Server α κ) : Msg where
  data := ((d.served.flatMap fun name => appendReload order (d.arrays name)) ++
    List.replicate (initLen d.arrays d.served).toNat 0).take (initLen d.arrays d.served).toNat
  size_lt := by
    have := d.small
    simp only [List.length_take]
    omega

/-- The messages a server keeps. -/
def Server.holds (d : Server α κ) : Multiset Nat := ↑d.init.toList

variable {order : HashOrder} {d : Server α κ} {h : Heap Msg} {H : Multiset Nat}

/-- What is left when the old message was given back. -/
theorem counted_giveBack (hc : h.Counted (d.holds + H)) :
    Heap.Counted (match d.init with | none => h | some id => h.decr id) H := by
  cases hinit : d.init with
  | none =>
      rw [Server.holds, hinit] at hc
      simpa using hc
  | some id =>
      have hcons : h.Counted (id ::ₘ H) := by
        simpa [Server.holds, hinit] using hc
      exact hcons.decr

variable [DecidableEq α]

/-- `arrayPtr->flags &= ~NV_INIT` for the served arrays. -/
def clearInit (arrays : α → Array κ) (served : List α) (name : α) : Array κ :=
  if name ∈ served then { arrays name with init := false } else arrays name

@[simp] theorem clearInit_vars (arrays : α → Array κ) (served : List α) (name : α) :
    (clearInit arrays served name).vars = (arrays name).vars := by
  unfold clearInit
  split_ifs <;> rfl

@[simp] theorem clearInit_netname (arrays : α → Array κ) (served : List α) (name : α) :
    (clearInit arrays served name).netname = (arrays name).netname := by
  unfold clearInit
  split_ifs <;> rfl

@[simp] theorem clearInit_sizekeys (arrays : α → Array κ) (served : List α) (name : α) :
    (clearInit arrays served name).sizekeys = (arrays name).sizekeys := by
  unfold clearInit
  split_ifs <;> rfl

@[simp] theorem clearInit_sizevalues (arrays : α → Array κ) (served : List α) (name : α) :
    (clearInit arrays served name).sizevalues = (arrays name).sizevalues := by
  unfold clearInit
  split_ifs <;> rfl

theorem initLen_clearInit (arrays : α → Array κ) (served : List α) :
    initLen (clearInit arrays served) served = initLen arrays served := by
  simp [initLen]

/-- A server whose arrays have their flag `NV_INIT` cleared. -/
def Server.cleared (d : Server α κ) : Server α κ :=
  { d with
    arrays := clearInit d.arrays d.served
    small := by rw [initLen_clearInit]; exact d.small }

/-- `ClientInitMsg`. -/
def clientInitMsg (order : HashOrder) (d : Server α κ) (h : Heap Msg) :
    Server α κ × Heap Msg × Option Nat :=
  if d.served.any fun name => (d.arrays name).init then
    let h := match d.init with
      | none => h
      | some id => h.decr id
    let r := h.alloc (d.initMsg order)
    ({ d.cleared with init := some r.2 }, r.1, some r.2)
  else (d.cleared, h, d.init)

/-- The broadcaster of a variable server calls `ClientInitMsg`, and the server keeps the message
it returns. -/
def clientInitProc (order : HashOrder) : Broadcast.InitProc (Server α κ) where
  proc := clientInitMsg order
  holds := Server.holds
  keeps _ := True
  sound d h H hc := by
    refine ⟨0, ?_, ?_, fun _ => rfl⟩
    · by_cases hflags : d.served.any fun name => (d.arrays name).init
      · have halloc := (counted_giveBack hc).alloc (d.initMsg order)
        simpa [clientInitMsg, hflags, Server.holds] using halloc
      · simpa [clientInitMsg, hflags, Server.holds, Server.cleared] using hc
    · intro id hid
      by_cases hflags : d.served.any fun name => (d.arrays name).init
      · simp only [clientInitMsg, hflags, if_true] at hid ⊢
        obtain rfl := Option.mem_some.mp hid
        simp [Server.holds]
      · simp only [clientInitMsg, hflags] at hid ⊢
        simpa [Server.holds, Server.cleared] using hid
  later d h := by
    by_cases hflags : d.served.any fun name => (d.arrays name).init
    · simp only [clientInitMsg, hflags, if_true]
      refine Heap.Extends.trans ?_ (Heap.extends_alloc _ _)
      cases d.init with
      | none => exact Heap.Extends.refl h
      | some id => exact Heap.extends_decr h id
    · simpa [clientInitMsg, hflags] using Heap.Extends.refl h

end Nsdci.Nv
