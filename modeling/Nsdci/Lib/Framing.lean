import Nsdci.Lib.Word

/-!
# Length-prefixed frames

A frame is a 4-byte big-endian length followed by that many bytes. `frames` is the byte stream
of a list of messages, and `whole ds n` are the messages whose frames lie wholly within its
first `n` bytes.
-/

namespace Nsdci.Lib

/-- The frame of one message. -/
def frame (d : Bytes) : Bytes := be32 d.length ++ d

/-- The stream of a list of messages. -/
def frames (ds : List Bytes) : Bytes := ds.flatMap frame

@[simp] theorem length_frame (d : Bytes) : (frame d).length = 4 + d.length := by
  simp [frame]

@[simp] theorem frames_nil : frames [] = [] := rfl

@[simp] theorem frames_cons (d : Bytes) (ds : List Bytes) :
    frames (d :: ds) = frame d ++ frames ds := rfl

@[simp] theorem frames_append (ds es : List Bytes) :
    frames (ds ++ es) = frames ds ++ frames es := by
  simp [frames]

/-- The messages whose frames end within the first `n` bytes of the stream. -/
def whole : List Bytes → Nat → List Bytes
  | [], _ => []
  | d :: ds, n => if 4 + d.length ≤ n then d :: whole ds (n - (4 + d.length)) else []

/-- `n` bytes past a list of frames, the messages of that list are whole. -/
theorem whole_append (ds es : List Bytes) (n : Nat) :
    whole (ds ++ es) ((frames ds).length + n) = ds ++ whole es n := by
  induction ds with
  | nil => simp
  | cons d ds ih =>
      have hle : 4 + d.length ≤ (frames (d :: ds)).length + n := by simp; omega
      have hsub : (frames (d :: ds)).length + n - (4 + d.length) = (frames ds).length + n := by
        simp only [frames_cons, List.length_append, length_frame]
        omega
      rw [List.cons_append, whole, if_pos hle, hsub, ih, List.cons_append]

/-- Inside a frame no further message is whole. -/
theorem whole_of_lt {d : Bytes} {ds : List Bytes} {n : Nat} (h : n < 4 + d.length) :
    whole (d :: ds) n = [] := by
  rw [whole, if_neg (by omega)]

end Nsdci.Lib
