import PracticeApps.Library.EventMachine
import PracticeApps.Library.TableView

/-!
# ChatViewController.swift, Message.swift

Snapshots of the `messages` collection and the blocks that the observer of
`messages` leaves on the main queue. Handlers and blocks run on the main queue
one at a time, and the blocks in the order in which they were queued.
-/

namespace PracticeApps.FlashChat
open EventMachine TableView

/-! ### Messages (Message.swift, Constants.swift) -/

namespace FStore

def senderField : String := "sender"
def bodyField : String := "body"
def dateField : String := "date"

end FStore

/- A value of a document; only strings are ever cast to. -/
inductive FieldValue where
  | string (value : String)
  | number (value : ℕ)
  | other
  deriving DecidableEq, Repr

abbrev Document := List (String × FieldValue)

/- `firestoreData[field] as? String` -/
def stringField (firestoreData : Document) (field : String) : Option String :=
  match firestoreData.lookup field with
  | some (.string value) => some value
  | _ => none

structure Message where
  sender : String
  body : String
  deriving DecidableEq, Repr

/- `Message.init?(with:)` -/
def Message.ofData (firestoreData : Document) : Option Message :=
  match stringField firestoreData FStore.bodyField, stringField firestoreData FStore.senderField with
  | some body, some sender => some { sender := sender, body := body }
  | _, _ => none

/- The document that `sendPressed` adds. -/
def sentData (sender messageBody : String) (timeIntervalSince1970 : ℕ) : Document :=
  [(FStore.senderField, .string sender), (FStore.bodyField, .string messageBody),
    (FStore.dateField, .number timeIntervalSince1970)]

theorem ofData_sentData (sender messageBody : String) (now : ℕ) :
    Message.ofData (sentData sender messageBody now) = some ⟨sender, messageBody⟩ := rfl

/-! ### The screen -/

structure Snapshot where
  documents : Option (List Document)
  error : Option String
  deriving DecidableEq, Repr

/- `DispatchQueue.main.async` of the observer of `messages`; its blocks are all alike. -/
inductive Block where
  | didSetMessages
  deriving DecidableEq, Repr

structure ChatViewController where
  messages : List Message
  mainQueue : List Block
  rows : ℕ
  deriving DecidableEq, Repr

inductive Trap where
  | table (error : TableError)
  deriving DecidableEq, Repr

inductive Event where
  | snapshot (snapshot : Snapshot)
  | runBlock
  deriving DecidableEq, Repr

def viewDidLoad : ChatViewController := { messages := [], mainQueue := [], rows := 0 }

def numberOfRowsInSection (s : ChatViewController) : ℕ := s.messages.length

def setMessages (messages : List Message) (s : ChatViewController) : ChatViewController :=
  { s with messages := messages, mainQueue := s.mainQueue ++ [.didSetMessages] }

def parsedMessages (documents : List Document) : List Message := documents.filterMap Message.ofData

/- The listener of `loadMessages`. -/
def snapshotListener (snapshot : Snapshot) (s : ChatViewController) : ChatViewController :=
  match snapshot.error with
  | some _ => s
  | none =>
    match snapshot.documents with
    | none => s
    | some documents => setMessages (parsedMessages documents) (setMessages [] s)

/- `messages.count - 1` is computed when the block runs, not when it is queued. -/
def Block.run (s : ChatViewController) : Block → Except Trap ChatViewController
  | .didSetMessages =>
    let s := { s with rows := numberOfRowsInSection s }
    match scrollToRow s.rows ((s.messages.length : ℤ) - 1) with
    | .ok _ => .ok s
    | .error e => .error (.table e)

def handle (s : ChatViewController) : Event → Except Trap ChatViewController
  | .snapshot snapshot => .ok (snapshotListener snapshot s)
  | .runBlock =>
    match s.mainQueue with
    | [] => .ok s
    | block :: mainQueue => block.run { s with mainQueue := mainQueue }

/- A block runs only if one is queued. -/
def Delivered (s : ChatViewController) : Event → Prop
  | .snapshot _ => True
  | .runBlock => s.mainQueue ≠ []

instance (s : ChatViewController) (e : Event) : Decidable (Delivered s e) := by
  cases e <;> unfold Delivered <;> infer_instance

/- The row a block scrolls to is the last message, and there has to be one. -/
theorem run_ok_iff (s : ChatViewController) (block : Block) :
    (∃ r, block.run s = .ok r) ↔ InRange ((s.messages.length : ℤ) - 1) s.messages.length := by
  cases block
  show (∃ r, (match scrollToRow s.messages.length ((s.messages.length : ℤ) - 1) with
    | .ok _ => .ok { s with rows := numberOfRowsInSection s }
    | .error e => .error (.table e) : Except Trap ChatViewController) = .ok r) ↔ _
  rw [← scrollToRow_ok_iff]
  cases scrollToRow s.messages.length ((s.messages.length : ℤ) - 1) with
  | ok u => simp
  | error e => simp

theorem run_messages {s r : ChatViewController} {block : Block} (h : block.run s = .ok r) :
    r.messages = s.messages ∧ r.mainQueue = s.mainQueue := by
  cases block
  unfold Block.run at h
  dsimp only at h
  split at h
  · cases h
    exact ⟨rfl, rfl⟩
  · cases h

theorem lastRow_inRange_iff (messages : List Message) :
    InRange ((messages.length : ℤ) - 1) messages.length ↔ messages ≠ [] := by
  rw [← List.length_pos_iff]
  unfold InRange
  omega

end PracticeApps.FlashChat
