import Furrent.Client.Destruction

/-! # The window

    Model of `Window` in `src/gui/gui.cpp` with the functions that `main`
    hands it. One thread runs the window: in every turn of the loop in `run`
    it may refresh the rows, draws them, looks at the file dialog and at the
    dialog that confirms a removal. In between it calls `add_torrent`,
    `get_gui_data` and `remove_torrent`, and the workers go on all the time.

    * `get_gui_data` loads two atomics, the state first; a worker may finish
      a piece between the two.
    * What the user does is left open: the loop may stop, a button of a
      visible row may be pressed, a file may be chosen, a dialog answered.
    * Which rows are visible depends on the scroll bar: the rows above are
      skipped.
    * An exception that leaves `run` ends the program, and so does a division
      by zero. The scheduler does not tell an `add_torrent` that reports an
      error from one that throws: both may follow.

    Positions, colours and fonts are left out. -/

namespace Furrent.Gui

open Cpp Transition Client

/-! ### Rows -/

/-- `TorrentGuiData`. -/
structure TorrentGuiData where
  tid : TorrentID
  state : TorrentState
  filename : Bytes
  piecesProcessed : Int
  piecesCount : Int
  deriving DecidableEq, Repr

/-- The arguments of `GuiProgressBar`, which draws from 0 to 100. -/
structure ProgressBar where
  textLeft : Bytes
  textRight : String
  value : Int
  deriving DecidableEq, Repr

/-- What is drawn of a row. -/
structure Item where
  name : Bytes
  bar : Option ProgressBar
  deriving DecidableEq, Repr

/-- `"Name: "` and the name, cut if it is too long. -/
def itemName (filename : Bytes) : Bytes :=
  let name := [78, 97, 109, 101, 58, 32] ++ filename
  if 20 < name.length then name.take 20 ++ [46, 46, 46] else name

/-- The text next to the bar; in the other states there is no bar. -/
def barText : TorrentState → Option String
  | .downloading => some "#6#Downloading"
  | .completed => some "#112#Downloaded"
  | .stopped => some "#132#Stopped"
  | .error => some "#113#Error"
  | .loading => none
  | .paused => none

/-- `Window::render_torrent_item`. -/
def renderTorrentItem (torrent : TorrentGuiData) : Outcome Empty Item := do
  let scaled ← int64 (torrent.piecesProcessed * 100)
  let progress ← divInt64 scaled torrent.piecesCount
  .ok {
    name := itemName torrent.filename
    bar := (barText torrent.state).map fun text =>
      ⟨Numeral.signedDecimal progress ++ [37, 32], text, progress⟩ }

/-- `Window::render_torrents`, with the first `above` rows scrolled away. -/
def renderTorrents (torrents : List TorrentGuiData) (above : Nat) : Outcome Empty (List Item) :=
  (torrents.drop above).mapM renderTorrentItem

/-- `GuiTorrentDialogState`. -/
structure TorrentDialogState where
  deleteTorrent : Bool
  torrent : TorrentGuiData

/-- `GuiScrollTorrentState`. -/
structure ScrollTorrentState where
  torrents : List TorrentGuiData
  dialog : TorrentDialogState

/-- `_scroller{}`. -/
def ScrollTorrentState.empty : ScrollTorrentState where
  torrents := []
  dialog := ⟨false, ⟨0, .loading, [], 0, 0⟩⟩

/-! ### The thread of the window -/

/-- Who has called `get_gui_data`. -/
inductive Caller where
  /-- The function that inserts a torrent. -/
  | insert
  /-- The function that updates row `k`. -/
  | update (k : Nat)
  deriving DecidableEq, Repr

/-- Why the program has ended. -/
inductive Crash where
  | exception (x : StdException)
  | trap
  deriving DecidableEq, Repr

/-- Where the thread is in `run`. -/
inductive Control where
  /-- At the head of the loop. -/
  | head
  /-- The rows before `k` have been updated. -/
  | updating (k : Nat)
  /-- In `render_base`. -/
  | drawing
  /-- In `render_file_dialog`. -/
  | fileDialog
  /-- In `add_torrent`. -/
  | inserting
  /-- In `get_gui_data`, before the state is loaded. -/
  | reading (caller : Caller) (tid : TorrentID)
  /-- In `get_gui_data`, with the state; the shared lock is held. -/
  | loaded (caller : Caller) (tid : TorrentID) (state : TorrentState)
  /-- In `render_confirm_dialog`. -/
  | confirmDialog
  /-- In `remove_torrent`. -/
  | removing (tid : TorrentID)
  /-- The loop is over. -/
  | closed
  | crashed (crash : Crash)
  deriving DecidableEq, Repr

/-- The program is running. -/
def Control.Alive : Control → Prop
  | .crashed _ => False
  | _ => True

/-- The window and the client it shows. -/
structure Window (n : Nat) where
  client : State n 1
  scroller : ScrollTorrentState
  control : Control

variable {n : Nat}

namespace Window

def start (files : Platform.FileSystem) : Window n where
  client := State.start files
  scroller := .empty
  control := .head

def torrents (w : Window n) : List TorrentGuiData := w.scroller.torrents

def dialog (w : Window n) : TorrentDialogState := w.scroller.dialog

/-- What `get_gui_data` returns goes where it was asked for. -/
def display (w : Window n) (data : TorrentGuiData) : Caller → Window n
  | .insert =>
    { w with
      scroller := { w.scroller with torrents := w.torrents ++ [data] }
      control := .confirmDialog }
  | .update k =>
    { w with
      scroller := { w.scroller with torrents := w.torrents.set k data }
      control := .updating (k + 1) }

/-- The row is erased. -/
def erase (w : Window n) (tid : TorrentID) : Window n :=
  { w with
    scroller := { w.scroller with torrents := w.torrents.filter fun t => t.tid ≠ tid } }

def setDialog (w : Window n) (dialog : TorrentDialogState) : Window n :=
  { w with scroller := { w.scroller with dialog := dialog } }

end Window

/-- `get_gui_data` with the state that was loaded before. -/
def guiData (tid : TorrentID) (state : TorrentState) (t : Torrent) : TorrentGuiData :=
  ⟨tid, state, t.descriptor.name, t.piecesProcessed, t.descriptor.piecesCount⟩

/-! ### Steps -/

section

variable {W : Type} (env : Peer → Download.Env W) (fuel : Nat)

inductive WindowStep : Window n → Window n → Prop where
  | worker {w : Window n} {i : Fin n} {client : State n 1} (alive : w.control.Alive)
      (step : Step env fuel w.client (.worker i) client) :
      WindowStep w { w with client := client }
  -- run
  | close {w : Window n} (control : w.control = .head) :
      WindowStep w { w with control := .closed }
  | update {w : Window n} (control : w.control = .head) :
      WindowStep w { w with control := .updating 0 }
  | tooEarly {w : Window n} (control : w.control = .head) :
      WindowStep w { w with control := .drawing }
  | updateNext {w : Window n} {k : Nat} {row : TorrentGuiData} (control : w.control = .updating k)
      (found : w.torrents[k]? = some row) :
      WindowStep w { w with control := .reading (.update k) row.tid }
  | updated {w : Window n} {k : Nat} (control : w.control = .updating k)
      (last : w.torrents[k]? = none) :
      WindowStep w { w with control := .drawing }
  -- get_gui_data
  | load {w : Window n} {caller : Caller} {tid : TorrentID} {t : Torrent}
      (control : w.control = .reading caller tid) (found : w.client.torrents tid = some t) :
      WindowStep w { w with control := .loaded caller tid t.state }
  | notFound {w : Window n} {caller : Caller} {tid : TorrentID}
      (control : w.control = .reading caller tid) (absent : w.client.torrents tid = none) :
      WindowStep w { w with
        control := .crashed
          (.exception (.invalidArgument "asked for a torrent id that doesn't exist")) }
  | count {w : Window n} {caller : Caller} {tid : TorrentID} {state : TorrentState} {t : Torrent}
      (control : w.control = .loaded caller tid state) (found : w.client.torrents tid = some t) :
      WindowStep w (w.display (guiData tid state t) caller)
  -- render_base
  | draw {w : Window n} {above : Nat} {items : List Item} (control : w.control = .drawing)
      (drawn : renderTorrents w.torrents above = .ok items) :
      WindowStep w { w with control := .fileDialog }
  | press {w : Window n} {above k : Nat} {items : List Item} {row : TorrentGuiData}
      (control : w.control = .drawing) (drawn : renderTorrents w.torrents above = .ok items)
      (visible : above ≤ k) (pressed : w.torrents[k]? = some row) :
      WindowStep w { w.setDialog ⟨true, row⟩ with control := .fileDialog }
  | drawTrap {w : Window n} {above : Nat} (control : w.control = .drawing)
      (drawn : renderTorrents w.torrents above = .error .trap) :
      WindowStep w { w with control := .crashed .trap }
  -- render_file_dialog
  | noFile {w : Window n} (control : w.control = .fileDialog) :
      WindowStep w { w with control := .confirmDialog }
  | insert {w : Window n} {client : State n 1} (control : w.control = .fileDialog)
      (step : Step env fuel w.client .adder client) :
      WindowStep w { w with client := client, control := .inserting }
  | insertNext {w : Window n} {client : State n 1} (control : w.control = .inserting)
      (step : Step env fuel w.client .adder client) (running : client.adder ≠ .idle) :
      WindowStep w { w with client := client }
  | inserted {w : Window n} {tid : TorrentID} {client : State n 1}
      (control : w.control = .inserting) (finishing : w.client.adder = .emplacing tid [])
      (step : Step env fuel w.client .adder client) :
      WindowStep w { w with client := client, control := .reading .insert tid }
  | insertFailed {w : Window n} {tid : TorrentID} {client : State n 1}
      (control : w.control = .inserting) (loading : w.client.adder = .loading tid)
      (step : Step env fuel w.client .adder client) (returned : client.adder = .idle) :
      WindowStep w { w with client := client, control := .confirmDialog }
  | insertThrew {w : Window n} {tid : TorrentID} {client : State n 1} {x : StdException}
      (control : w.control = .inserting) (loading : w.client.adder = .loading tid)
      (step : Step env fuel w.client .adder client) (returned : client.adder = .idle) :
      WindowStep w { w with client := client, control := .crashed (.exception x) }
  -- render_confirm_dialog
  | noDialog {w : Window n} (control : w.control = .confirmDialog)
      (closed : w.dialog.deleteTorrent = false) :
      WindowStep w { w with control := .head }
  | noAnswer {w : Window n} (control : w.control = .confirmDialog)
      (opened : w.dialog.deleteTorrent = true) :
      WindowStep w { w with control := .head }
  | dismiss {w : Window n} (control : w.control = .confirmDialog)
      (opened : w.dialog.deleteTorrent = true) :
      WindowStep w { w.setDialog ⟨false, w.dialog.torrent⟩ with control := .head }
  | confirm {w : Window n} {client : State n 1} (control : w.control = .confirmDialog)
      (opened : w.dialog.deleteTorrent = true)
      (step : Step env fuel w.client (.remover 0) client)
      (purged : client.removers 0 = .purged w.dialog.torrent.tid) :
      WindowStep w
        { w.setDialog ⟨false, w.dialog.torrent⟩ with
          client := client
          control := .removing w.dialog.torrent.tid }
  | removeNext {w : Window n} {tid : TorrentID} {client : State n 1}
      (control : w.control = .removing tid) (step : Step env fuel w.client (.remover 0) client)
      (running : client.removers 0 ≠ .idle) :
      WindowStep w { w with client := client }
  | removed {w : Window n} {tid : TorrentID} {client : State n 1}
      (control : w.control = .removing tid) (step : Step env fuel w.client (.remover 0) client)
      (returned : client.removers 0 = .idle) :
      WindowStep w { w.erase tid with client := client, control := .head }

/-- The program with `n` workers. -/
def application (n : Nat) : System (Window n) Unit where
  init := fun w => ∃ files, w = Window.start files
  step := fun w _ w' => WindowStep env fuel w w'

end

end Furrent.Gui
