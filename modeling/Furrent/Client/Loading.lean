import Furrent.Client.Layout
import Furrent.Client.Lookups
import Furrent.Torrent.Announce
import Furrent.Torrent.Generation

/-! # Loading a torrent

    Model of `Furrent::add_torrent` in `src/furrent.cpp`, from the name of a
    file to the queued tasks. Each stage can fail, and `add_torrent` looks at
    the results: what is read, what is parsed, whether the files were made,
    whether there are peers. But the stages also throw, and nothing catches:
    the parser at a numeral that is too large, the constructor of
    `TorrentFile` for a tree of the wrong shape, `touch` for an empty file,
    the constructor of `Torrent` for a response of the wrong shape, and the
    queue when it is full.

    The call is modelled as if it was alone. What it does is a run of the
    steps that `Scheduler` has for it (`addTorrent_run`), so that what is
    proved there of all interleavings holds for it too. -/

namespace Furrent.Client

open Cpp Path Platform.Io Policy Torrent Transition
open Bencode (decode BencodeValue)

/-! ### The code -/

/-- `Furrent::Error`. -/
inductive FurrentError where
  | genericError
  | loadingTorrentFailed
  deriving DecidableEq, Repr

/-- `Furrent`, as far as `add_torrent` works on it, and the disk. -/
structure Session where
  tasks : List PieceTask
  torrents : TorrentID → Option Torrent
  nextUid : TorrentID
  downloadFolder : Bytes
  disk : Disk
  /-- A task is for a torrent that has been given a number. -/
  numbered : ∀ task ∈ tasks, task.tid < nextUid
  /-- An entry for another number is there because somebody has looked it
      up. -/
  unnumbered : ∀ tid t, nextUid ≤ tid → torrents tid = some t → t.peers = []
  fits : tasks.length ≤ INT64_MAX

/-- What `add_torrent` depends on besides: how the calls to the operating
    system fare, what is on the network, and the memory behind the text of
    the file and behind the vector of files. -/
structure Machine where
  cwd : Location
  readFault : ReadFault
  folderFaults : FolderFaults
  fileFaults : FileFaults
  network : Network
  sha1 : Bytes → Bytes
  beyondText : Nat → Option UInt8
  beyondFiles : Nat → Option Int

/-- The loop `for (Piece& piece : pieces) _tasks.emplace(…)`. -/
def emplaceLoop (tid : TorrentID) (descriptor : TorrentFile) :
    List Piece → List PieceTask → List PieceTask × Outcome Empty Unit
  | [], tasks => (tasks, .ok ())
  | piece :: pieces, tasks =>
    if tasks.length = INT64_MAX then
      (tasks, .error (.throw (.logicError "queue cannot fit more items")))
    else emplaceLoop tid descriptor pieces (Queue.emplace tasks ⟨none, tid, piece, descriptor⟩)

theorem mem_emplaceLoop {tid : TorrentID} {descriptor : TorrentFile} {pieces : List Piece}
    {tasks : List PieceTask} {task : PieceTask}
    (h : task ∈ (emplaceLoop tid descriptor pieces tasks).1) : task ∈ tasks ∨ task.tid = tid := by
  induction pieces generalizing tasks with
  | nil => exact .inl h
  | cons piece pieces ih =>
    unfold emplaceLoop at h
    split at h
    · exact .inl h
    · rcases ih h with hmem | htid
      · rcases List.mem_append.mp hmem with hmem | hnew
        · exact .inl hmem
        · rw [List.mem_singleton.mp hnew]
          exact .inr rfl
      · exact .inr htid

theorem length_emplaceLoop_le {tid : TorrentID} {descriptor : TorrentFile} {pieces : List Piece}
    {tasks : List PieceTask} (h : tasks.length ≤ INT64_MAX) :
    (emplaceLoop tid descriptor pieces tasks).1.length ≤ INT64_MAX := by
  induction pieces generalizing tasks with
  | nil => exact h
  | cons piece pieces ih =>
    unfold emplaceLoop
    split
    · exact h
    · apply ih
      rw [Queue.emplace, List.length_append, List.length_singleton]
      omega

namespace Session

variable (c : Session)

/-- `_descriptor_next_uid += 1`. -/
def countUp : Session :=
  { c with
    nextUid := c.nextUid + 1
    numbered := fun task htask => lt_trans (c.numbered task htask) (Int.lt_succ _)
    unnumbered := fun tid t htid => c.unnumbered tid t (le_trans (Int.lt_succ _).le htid) }

def onDisk (disk : Disk) : Session := { c with disk := disk }

def setTorrent (tid : TorrentID) (htid : tid < c.nextUid) (t : Torrent) : Session :=
  { c with
    torrents := Function.update c.torrents tid (some t)
    unnumbered := fun tid' t' hle hfound => by
      rw [Function.update_of_ne (htid.trans_le hle).ne'] at hfound
      exact c.unnumbered tid' t' hle hfound }

/-- The torrent that `_torrents.try_emplace(tid, tid, descriptor)` leaves in
    the map: one that is there stays, and nothing is announced. -/
def tryEmplace (network : Network) (tid : TorrentID) (descriptor : TorrentFile) :
    Outcome Empty Torrent :=
  match c.torrents tid with
  | some t => .ok t
  | none => construct network tid descriptor

/-- A task for each piece. -/
def emplace (tid : TorrentID) (htid : tid < c.nextUid) (descriptor : TorrentFile)
    (pieces : List Piece) : Session × Outcome Empty Unit :=
  ({ c with
    tasks := (emplaceLoop tid descriptor pieces c.tasks).1
    numbered := fun task htask =>
      (mem_emplaceLoop htask).elim (c.numbered task) fun heq => by rw [heq]; exact htid
    fits := length_emplaceLoop_le c.fits },
    (emplaceLoop tid descriptor pieces c.tasks).2)

end Session

section

variable (machine : Machine)

/-- `add_torrent` under the lock. -/
def startTorrent (c : Session) (tid : TorrentID) (htid : tid < c.nextUid)
    (descriptor : TorrentFile) : Session × Outcome FurrentError TorrentID :=
  match c.tryEmplace machine.network tid descriptor with
  | .error stop => (c, .error stop.widen)
  | .ok torrent =>
    if torrent.peers = [] then
      (c.setTorrent tid htid { torrent with state := .error }, .error (.error .genericError))
    else
      match pieces torrent.descriptor machine.beyondFiles with
      | .error stop => (c.setTorrent tid htid torrent, .error stop.widen)
      | .ok ps =>
        let emplaced := c.emplace tid htid torrent.descriptor ps
        match emplaced.2 with
        | .error stop => (emplaced.1.setTorrent tid htid torrent, .error stop.widen)
        | .ok _ =>
          (emplaced.1.setTorrent tid htid { torrent with state := .downloading }, .ok tid)

/-- `prepare_torrent_files(descriptor)`. -/
def prepareFiles (c : Session) (descriptor : TorrentFile) :
    Disk × TorrentFile × Outcome Empty Bool :=
  prepareTorrentFiles machine.cwd machine.folderFaults machine.fileFaults c.downloadFolder c.disk
    descriptor

/-- `add_torrent` once there is a descriptor. -/
def addDescriptor (c : Session) (descriptor : TorrentFile) :
    Session × Outcome FurrentError TorrentID :=
  match prepareFiles machine c descriptor with
  | (disk, _, .error stop) => (c.countUp.onDisk disk, .error stop.widen)
  | (disk, _, .ok false) => (c.countUp.onDisk disk, .error (.error .loadingTorrentFailed))
  | (disk, descriptor, .ok true) =>
    startTorrent machine (c.countUp.onDisk disk) c.nextUid (Int.lt_succ _) descriptor

/-- `add_torrent` once the content has been parsed. -/
def addTree (c : Session) (btree : BencodeValue) : Session × Outcome FurrentError TorrentID :=
  match TorrentFile.ofTree machine.sha1 btree with
  | .error stop => (c.countUp, .error stop.widen)
  | .ok descriptor => addDescriptor machine c descriptor

/-- `Furrent::add_torrent`. -/
def addTorrent (c : Session) (filename : Bytes) : Session × Outcome FurrentError TorrentID :=
  match loadFileText machine.cwd machine.readFault c.disk filename with
  | .error _ => (c.countUp, .error (.error .loadingTorrentFailed))
  | .ok content =>
    match decode machine.beyondText content with
    | .error (.error _) => (c.countUp, .error (.error .loadingTorrentFailed))
    | .error (.throw x) => (c.countUp, .error (.throw x))
    | .error .trap => (c.countUp, .error .trap)
    | .error .outOfFuel => (c.countUp, .error .outOfFuel)
    | .ok btree => addTree machine c btree

end

/-! ### The tasks -/

section

variable {tid : TorrentID} {descriptor : TorrentFile} {ps : List Piece} {tasks : List PieceTask}

/-- The tasks of the pieces follow those that were there. -/
theorem emplaceLoop_of_ok (h : (emplaceLoop tid descriptor ps tasks).2 = .ok ()) :
    (emplaceLoop tid descriptor ps tasks).1 =
      tasks ++ ps.map fun piece => ⟨none, tid, piece, descriptor⟩ := by
  induction ps generalizing tasks with
  | nil => simp [emplaceLoop]
  | cons piece ps ih =>
    unfold emplaceLoop at h ⊢
    split at h
    · injection h
    · next hroom =>
      rw [if_neg hroom, ih h, Queue.emplace, List.append_assoc, List.map_cons,
        List.singleton_append]

theorem emplaceLoop_returns_iff (hfits : tasks.length ≤ INT64_MAX) :
    (emplaceLoop tid descriptor ps tasks).2 = .ok () ↔ tasks.length + ps.length ≤ INT64_MAX := by
  induction ps generalizing tasks with
  | nil => simpa [emplaceLoop] using hfits
  | cons piece ps ih =>
    unfold emplaceLoop
    by_cases hfull : tasks.length = INT64_MAX
    · rw [if_pos hfull, List.length_cons]
      constructor
      · intro h
        injection h
      · intro h
        omega
    · have hlength : (Queue.emplace tasks ⟨none, tid, piece, descriptor⟩).length =
          tasks.length + 1 := by
        rw [Queue.emplace, List.length_append, List.length_singleton]
      rw [if_neg hfull, ih (by omega), hlength, List.length_cons]
      omega

end

/-! ### When a call is handled -/

variable {machine : Machine} {c : Session} {tid : TorrentID} {d : TorrentFile} {t : Torrent}

/-- Under the lock the call ends well if there is nobody to download from, or
    the pieces are generated and the queue has room for their tasks. -/
theorem startTorrent_of_tryEmplace {htid : tid < c.nextUid}
    (h : c.tryEmplace machine.network tid d = .ok t) :
    Reports (startTorrent machine c tid htid d).2 ↔
      (t.peers ≠ [] → ∃ ps, pieces t.descriptor machine.beyondFiles = .ok ps ∧
        c.tasks.length + ps.length ≤ INT64_MAX) := by
  unfold startTorrent
  simp only [h]
  by_cases hpeers : t.peers = []
  · simp [hpeers, Reports]
  · simp only [if_neg hpeers]
    cases hpieces : pieces t.descriptor machine.beyondFiles with
    | error stop => simp [hpeers, not_reports_widen]
    | ok ps =>
      have hroom : (emplaceLoop tid t.descriptor ps c.tasks).2 = .ok () ↔ _ :=
        emplaceLoop_returns_iff c.fits
      simp only [hpeers, ne_eq, not_false_eq_true, Except.ok.injEq, exists_eq_left', forall_const,
        ← hroom]
      cases hr : (emplaceLoop tid t.descriptor ps c.tasks).2 with
      | error stop => simp [Session.emplace, hr, not_reports_widen]
      | ok _ => simp [Session.emplace, hr, Reports]

/-- There are as many pieces as the descriptor says. -/
theorem pieces_room_iff {lengths : List Int64} {k : Int64} {tasks : List PieceTask}
    (hd : Constructed lengths k d) (hpos : ∀ f ∈ d.files, 0 < f.length) :
    (∃ ps, pieces d machine.beyondFiles = .ok ps ∧ tasks.length + ps.length ≤ INT64_MAX) ↔
      Generates d machine.beyondFiles ∧ tasks.length + d.piecesCount ≤ INT64_MAX := by
  have hlength : ∀ {ps}, pieces d machine.beyondFiles = .ok ps →
      (ps.length : Int) = d.piecesCount := by
    intro ps hps
    have hindex := congrArg List.length (pieces_index hps)
    rw [List.length_map, Int.range, List.length_map, List.length_range] at hindex
    have := hd.hashes
    omega
  rw [← pieces_returns_iff hd hpos]
  constructor
  · rintro ⟨ps, hps, hroom⟩
    have := hlength hps
    exact ⟨⟨ps, hps⟩, by omega⟩
  · rintro ⟨⟨ps, hps⟩, hroom⟩
    have := hlength hps
    exact ⟨ps, hps, by omega⟩

/-- The tracker decides: there is an entry without peers already, or no
    response, or one that can be read; and if it names peers, the pieces can
    be generated and the queue has room. -/
def Startable (machine : Machine) (c : Session) (tid : TorrentID) (d : TorrentFile) : Prop :=
  c.torrents tid ≠ none ∨ Silent machine.network (Peer.announceRequest d) ∨
    ∃ value, Answers machine.network (Peer.announceRequest d) value ∧
      (value ≠ [] →
        Generates d machine.beyondFiles ∧ c.tasks.length + d.piecesCount ≤ INT64_MAX)

/-- Neither the tracker nor the pieces depend on where the files are. -/
theorem startable_folderName {folderName : Bytes} :
    Startable machine c tid { d with folderName := folderName } ↔ Startable machine c tid d := by
  unfold Startable
  rw [generates_folderName]
  exact Iff.rfl

theorem startTorrent_reports_iff {lengths : List Int64} {k : Int64} {htid : tid < c.nextUid}
    (hentry : ∀ t, c.torrents tid = some t → t.peers = []) (hd : Constructed lengths k d)
    (hpos : ∀ f ∈ d.files, 0 < f.length) :
    Reports (startTorrent machine c tid htid d).2 ↔ Startable machine c tid d := by
  unfold Startable
  cases hfound : c.torrents tid with
  | some t =>
    have htry : c.tryEmplace machine.network tid d = .ok t := by
      rw [Session.tryEmplace, hfound]
    rw [startTorrent_of_tryEmplace htry, hentry t hfound]
    simp
  | none =>
    have htry : c.tryEmplace machine.network tid d = construct machine.network tid d := by
      rw [Session.tryEmplace, hfound]
    cases announced machine.network tid d with
    | silent silent eq =>
      rw [startTorrent_of_tryEmplace (htry.trans eq)]
      simp [create, silent]
    | @answered value peers answers count eq =>
      have hpeers : peers ≠ [] ↔ value ≠ [] := by
        rw [← List.length_pos_iff, ← List.length_pos_iff]
        omega
      have hvalue : ∀ P : Bytes → Prop,
          (∃ value', Answers machine.network (Peer.announceRequest d) value' ∧ P value') ↔
            P value := by
        intro P
        constructor
        · rintro ⟨value', answers', hP⟩
          rwa [answers.unique answers']
        · intro hP
          exact ⟨value, answers, hP⟩
      rw [startTorrent_of_tryEmplace (htry.trans eq), hvalue]
      simp only [create, hpeers, pieces_room_iff hd hpos, answers.not_silent, ne_eq,
        not_true_eq_false, false_or]
    | stopped silent answers eq =>
      have hstop : c.tryEmplace machine.network tid d = _ := htry.trans eq
      unfold startTorrent
      simp [hstop, not_reports_widen, silent, answers]

/-- What it takes for a torrent of the right shape, with its files in
    `folder`: none of them is reached that has no name or no last byte, and
    if all are made, the torrent can be started. -/
structure Manageable (machine : Machine) (c : Session) (d : TorrentFile) (folder : Bytes) :
    Prop where
  files : ¬ ComesTo machine.cwd machine.fileFaults folder 0
    (c.disk.shape.addDirs (pathWay machine.cwd folder)) d.files
    (FileEscapes machine.cwd machine.fileFaults folder)
  torrent : AllMade machine.cwd machine.fileFaults folder 0
      (c.disk.shape.addDirs (pathWay machine.cwd folder)) d.files →
    Startable machine c c.nextUid d

/-- The torrent is started under a number nobody has had yet, and the folder
    it has been given does not matter for that. -/
theorem startTorrent_prepared_reports_iff {lengths : List Int64} {k : Int64} {disk : Disk}
    {folder : Bytes} (hd : Constructed lengths k d) (hpos : ∀ f ∈ d.files, 0 < f.length) :
    Reports (startTorrent machine (c.countUp.onDisk disk) c.nextUid (Int.lt_succ _)
      { d with folderName := folder }).2 ↔ Startable machine c c.nextUid d := by
  have hentry : ∀ t, (c.countUp.onDisk disk).torrents c.nextUid = some t → t.peers = [] :=
    fun t => c.unnumbered c.nextUid t le_rfl
  have hconstructed : Constructed lengths k { d with folderName := folder } :=
    ⟨hd.files, hd.length, hd.pieceLength, hd.fits, hd.pieceLength_ne, hd.piecesCount, hd.hashes⟩
  have hwhere : Startable machine (c.countUp.onDisk disk) c.nextUid
      { d with folderName := folder } ↔ Startable machine c c.nextUid d := startable_folderName
  exact (startTorrent_reports_iff hentry hconstructed hpos).trans hwhere

theorem addDescriptor_reports_iff {lengths : List Int64} {k : Int64} {n : Nat} {folder : Bytes}
    (hd : Constructed lengths k d)
    (hn : Chosen machine.cwd machine.folderFaults.tells c.downloadFolder c.disk d.name n)
    (hfolder : folder = copyPath c.downloadFolder d.name n) :
    Reports (addDescriptor machine c d).2 ↔
      (Creatable machine.cwd machine.folderFaults.create c.disk.shape folder →
        Manageable machine c d folder) := by
  obtain ⟨hall, hdescriptor, hescapes⟩ := prepareTorrentFiles_spec machine.fileFaults hn hfolder
  unfold addDescriptor
  cases hprepare : prepareFiles machine c d with
  | mk disk rest =>
    obtain ⟨d', made⟩ := rest
    unfold prepareFiles at hprepare
    rw [hprepare] at hall hdescriptor hescapes
    cases made with
    | error stop =>
      obtain ⟨hcreatable, hcomes⟩ := hescapes.mp ⟨stop, rfl⟩
      refine iff_of_false (not_reports_widen stop) ?_
      intro h
      exact (h hcreatable).files hcomes
    | ok made =>
      -- Nothing has escaped.
      have hfiles : Creatable machine.cwd machine.folderFaults.create c.disk.shape folder →
          ¬ ComesTo machine.cwd machine.fileFaults folder 0
            (c.disk.shape.addDirs (pathWay machine.cwd folder)) d.files
            (FileEscapes machine.cwd machine.fileFaults folder) := by
        intro hcreatable hcomes
        obtain ⟨stop, hstop⟩ := hescapes.mpr ⟨hcreatable, hcomes⟩
        injection hstop
      cases made with
      | false =>
        -- A file could not be made, which is an error of the code's own.
        refine iff_of_true (.inr ⟨_, rfl⟩) ?_
        intro hcreatable
        refine ⟨hfiles hcreatable, fun hmade => ?_⟩
        have hfalse := hall.mpr ⟨hcreatable, hmade⟩
        injection hfalse with hfalse
        injection hfalse
      | true =>
        obtain ⟨hcreatable, hmade⟩ := hall.mp rfl
        have hd' : d' = { d with folderName := folder } := hdescriptor rfl
        subst hd'
        refine (startTorrent_prepared_reports_iff hd hmade.length_pos).trans ?_
        exact ⟨fun h _ => ⟨hfiles hcreatable, fun _ => h⟩, fun h => (h hcreatable).torrent hmade⟩

/-- The tree describes a torrent that can be dealt with in the folder that is
    chosen for it. -/
def Acceptable (machine : Machine) (c : Session) (btree : BencodeValue) : Prop :=
  ∃ d, Describes machine.sha1 btree d ∧
    ∀ n folder, Chosen machine.cwd machine.folderFaults.tells c.downloadFolder c.disk d.name n →
      folder = copyPath c.downloadFolder d.name n →
      Creatable machine.cwd machine.folderFaults.create c.disk.shape folder →
      Manageable machine c d folder

theorem addTree_reports_iff {btree : BencodeValue} :
    Reports (addTree machine c btree).2 ↔ Acceptable machine c btree := by
  unfold Acceptable addTree
  simp only [← ofTree_eq_ok_iff]
  cases htree : TorrentFile.ofTree machine.sha1 btree with
  | error stop => simp [not_reports_widen]
  | ok d =>
    obtain ⟨lengths, k, _, hd⟩ := ofTree_eq_ok htree
    obtain ⟨n, hn, _⟩ :=
      chooseFolder_chosen machine.cwd machine.folderFaults c.downloadFolder c.disk d.name
    simp only [Except.ok.injEq, exists_eq_left', addDescriptor_reports_iff hd hn rfl]
    constructor
    · intro h n' folder hn' hfolder
      rw [hfolder, hn'.unique hn]
      exact h
    · intro h
      exact h n _ hn rfl

/-! ### What an error leaves behind -/

theorem startTorrent_tasks {htid : tid < c.nextUid} {e : FurrentError}
    (h : (startTorrent machine c tid htid d).2 = .error (.error e)) :
    (startTorrent machine c tid htid d).1.tasks = c.tasks := by
  unfold startTorrent at h ⊢
  cases htry : c.tryEmplace machine.network tid d with
  | error stop => rfl
  | ok t =>
    simp only [htry] at h ⊢
    by_cases hpeers : t.peers = []
    · rw [if_pos hpeers]
      rfl
    · simp only [if_neg hpeers] at h ⊢
      cases hpieces : pieces t.descriptor machine.beyondFiles with
      | error stop => rfl
      | ok ps =>
        simp only [hpieces, Session.emplace] at h
        cases hr : (emplaceLoop tid t.descriptor ps c.tasks).2 with
        | error stop =>
          simp only [hr, Except.error.injEq] at h
          exact absurd h (widen_ne_error stop e)
        | ok _ =>
          simp only [hr] at h
          injection h

/-- A call ends before it has taken the lock, with nothing changed but the
    disk, or with what it does under the lock. -/
theorem addTorrent_cases (machine : Machine) (c : Session) (filename : Bytes) :
    (∃ disk stop, addTorrent machine c filename = (c.countUp.onDisk disk, .error stop)) ∨
    ∃ disk d, addTorrent machine c filename =
      startTorrent machine (c.countUp.onDisk disk) c.nextUid (Int.lt_succ _) d := by
  unfold addTorrent
  cases loadFileText machine.cwd machine.readFault c.disk filename with
  | error _ => exact .inl ⟨c.disk, _, rfl⟩
  | ok content =>
    cases hdecode : decode machine.beyondText content with
    | error stop =>
      simp only [hdecode]
      cases stop with
      | error e => exact .inl ⟨c.disk, _, rfl⟩
      | throw x => exact .inl ⟨c.disk, _, rfl⟩
      | trap => exact .inl ⟨c.disk, _, rfl⟩
      | outOfFuel => exact .inl ⟨c.disk, _, rfl⟩
    | ok btree =>
      simp only [hdecode]
      unfold addTree
      cases TorrentFile.ofTree machine.sha1 btree with
      | error stop => exact .inl ⟨c.disk, _, rfl⟩
      | ok d =>
        show (∃ disk stop, addDescriptor machine c d = _) ∨ ∃ disk d', addDescriptor machine c d = _
        unfold addDescriptor
        cases prepareFiles machine c d with
        | mk disk rest =>
          obtain ⟨d', made⟩ := rest
          cases made with
          | error stop => exact .inl ⟨disk, _, rfl⟩
          | ok made =>
            cases made with
            | false => exact .inl ⟨disk, _, rfl⟩
            | true => exact .inr ⟨disk, d', rfl⟩

/-- A call that returns an error has not touched the queue. -/
theorem addTorrent_tasks {filename : Bytes} {e : FurrentError}
    (h : (addTorrent machine c filename).2 = .error (.error e)) :
    (addTorrent machine c filename).1.tasks = c.tasks := by
  rcases addTorrent_cases machine c filename with ⟨disk, stop, heq⟩ | ⟨disk, d, heq⟩
  · rw [heq]
    rfl
  · rw [heq] at h ⊢
    exact startTorrent_tasks h

/-! ### Every content -/

/-- The file cannot be read, or is not bencode, or describes a torrent that
    can be dealt with. -/
def Handled (machine : Machine) (c : Session) (filename : Bytes) : Prop :=
  ∀ content, Reads machine.cwd machine.readFault c.disk filename content →
    (∃ e, decode machine.beyondText content = .error (.error e)) ∨
    ∃ btree, decode machine.beyondText content = .ok btree ∧ Acceptable machine c btree

/-- For every file, and whatever the disk, the network and the memory do:
    `add_torrent` returns a number or an error, and lets no exception escape,
    if and only if the file is not bencode or is one of the torrents it can
    deal with. When it returns an error, the number it has taken is on no
    task in the queue. -/
theorem addTorrent_reports_iff (machine : Machine) (c : Session) (filename : Bytes) :
    (Reports (addTorrent machine c filename).2 ↔ Handled machine c filename) ∧
    ∀ e, (addTorrent machine c filename).2 = .error (.error e) →
      ∀ task ∈ (addTorrent machine c filename).1.tasks, task.tid ≠ c.nextUid := by
  constructor
  · unfold addTorrent Handled
    simp only [← loadFileText_eq_ok_iff]
    cases hload : loadFileText machine.cwd machine.readFault c.disk filename with
    | error e => simp [Reports]
    | ok content =>
      simp only [Except.ok.injEq, forall_eq']
      cases hdecode : decode machine.beyondText content with
      | error stop => cases stop <;> simp [Reports]
      | ok btree => simp [addTree_reports_iff]
  · intro e he task htask
    rw [addTorrent_tasks he] at htask
    exact (c.numbered task htask).ne

/-! ### In the running program -/

section

variable {n m : Nat} {W : Type} {env : Peer → Download.Env W} {fuel : Nat} {s s' : State n m}

/-- The program is where the session is. -/
structure Shows (s : State n m) (c : Session) : Prop where
  tasks : s.tasks = c.tasks
  torrents : s.torrents = c.torrents
  nextUid : s.nextUid = c.nextUid

theorem generated_of_task (h : Reachable (furrent env fuel n m) s) {task : PieceTask}
    (htask : task ∈ s.tasks) : task.tid ∈ s.log.generated := by
  obtain ⟨loc, _, hagrees⟩ := furrent_simulates.reachable h
  have hqueued : 0 < s.found .queued task.key :=
    List.count_pos_iff.mpr (List.mem_map_of_mem htask)
  have hloc := hagrees.located.eq_some hqueued
  exact ((hagrees.generated task.key).mp (by simp [hloc])).1

theorem Step.nextUid_le {a : Actor n m} (h : Step env fuel s a s') : s.nextUid ≤ s'.nextUid := by
  cases h with
  | addBegin ha => exact (Int.lt_succ _).le
  | addWithoutPeers ha hlock hs' hpeers =>
    subst hs'
    exact le_refl _
  | addThrow ha hlock hs' hpeers hpieces =>
    subst hs'
    exact le_refl _
  | addGenerate ha hlock hs' hpeers hpieces =>
    subst hs'
    exact le_refl _
  | _ => exact le_refl _

/-- A number that has not been given has no peers, even if there is an entry
    for it. -/
theorem peers_of_unnumbered (h : Reachable (furrent env fuel n m) s) (htid : s.nextUid ≤ tid) :
    (s.torrent tid).peers = [] := by
  revert htid
  apply h.invariant (I := fun s => s.nextUid ≤ tid → (s.torrent tid).peers = [])
  · intro s hs htid
    obtain ⟨files, rfl⟩ := hs
    rfl
  · intro s a s' hreach hs hstep htid
    have hbefore : s.nextUid ≤ tid := hstep.nextUid_le.trans htid
    -- Peers come with the torrent that is being added, and it has a number.
    have hadder : s.adder ≠ .loading tid := by
      intro ha
      exact absurd ((fresh_of_reachable hreach).loading tid ha).1 (not_lt.mpr hbefore)
    rw [hstep.peers hadder]
    exact hs hbefore

/-- Wherever the program gets to, it can be seen as a session. -/
theorem exists_session (h : Reachable (furrent env fuel n m) s)
    (hfits : s.tasks.length ≤ INT64_MAX) (downloadFolder : Bytes) (disk : Disk) :
    ∃ c : Session, Shows s c ∧ c.downloadFolder = downloadFolder ∧ c.disk = disk := by
  have hnumbered : ∀ task ∈ s.tasks, task.tid < s.nextUid := by
    intro task htask
    exact (fresh_of_reachable h).generated _ (generated_of_task h htask)
  have hunnumbered : ∀ tid t, s.nextUid ≤ tid → s.torrents tid = some t → t.peers = [] := by
    intro tid t htid ht
    have hpeers := peers_of_unnumbered h htid
    rwa [State.torrent, ht, Option.getD_some] at hpeers
  exact ⟨⟨s.tasks, s.torrents, s.nextUid, downloadFolder, disk, hnumbered, hunnumbered, hfits⟩,
    ⟨rfl, rfl, rfl⟩, rfl, rfl⟩

/-- Whatever the other threads do: a call that ends without having generated
    the pieces leaves no task for its torrent. -/
theorem no_task_of_failed (h : Reachable (furrent env fuel n m) s)
    (hstep : Step env fuel s .adder s') (hloading : s.adder = .loading tid)
    (hidle : s'.adder = .idle) : ∀ task ∈ s'.tasks, task.tid ≠ tid := by
  have hnone : ∀ task ∈ s.tasks, task.tid ≠ tid := by
    intro task htask heq
    have hgenerated := generated_of_task h htask
    rw [heq] at hgenerated
    exact ((fresh_of_reachable h).loading tid hloading).2 hgenerated
  cases hstep with
  | addBegin ha => simp at hidle
  | addPrepare files ha => exact hnone
  | addFail ha => exact hnone
  | addWithoutPeers ha hlock hs' hpeers =>
    subst hs'
    exact hnone
  | addThrow ha hlock hs' hpeers hpieces =>
    subst hs'
    exact hnone
  | addGenerate ha hlock hs' hpeers hpieces => simp at hidle
  | addEmplace ha => simp at hidle
  | addFinish ha =>
    rw [hloading] at ha
    injection ha

/-- The loop over the pieces and what follows, step by step. -/
theorem emplacing_run (env : Peer → Download.Env W) (fuel : Nat) {ps : List Piece}
    (hs : s.adder = .emplacing tid ps) :
    ∃ s', Reaches (furrent env fuel n m) s s' ∧ s'.adder = .idle ∧ s'.nextUid = s.nextUid ∧
      s'.tasks = s.tasks ++ ps.map (fun piece => ⟨none, tid, piece, (s.torrent tid).descriptor⟩) ∧
      s'.torrents = (s.setTorrent tid { s.torrent tid with state := .downloading }).torrents := by
  induction ps generalizing s with
  | nil =>
    have hfinish : Step env fuel s .adder _ := .addFinish hs
    exact ⟨_, .single ⟨_, hfinish⟩, rfl, rfl, (List.append_nil _).symm, rfl⟩
  | cons piece ps ih =>
    obtain ⟨s₁, hemplace, hadder, hnext, htasks, htorrents⟩ : ∃ s₁, Step env fuel s .adder s₁ ∧
        s₁.adder = .emplacing tid ps ∧ s₁.nextUid = s.nextUid ∧
        s₁.tasks = s.tasks ++ [⟨none, tid, piece, (s.torrent tid).descriptor⟩] ∧
        s₁.torrents = s.torrents :=
      ⟨_, .addEmplace hs, rfl, rfl, rfl, rfl⟩
    have htorrent : s₁.torrent tid = s.torrent tid := by
      rw [State.torrent, State.torrent, htorrents]
    obtain ⟨s', hrun, hidle, hnext', htasks', htorrents'⟩ := ih hadder
    refine ⟨s', .step hemplace hrun, hidle, hnext'.trans hnext, ?_, ?_⟩
    · rw [htasks', htasks, htorrent, List.append_assoc, List.singleton_append, List.map_cons]
    · rw [htorrents', State.setTorrent, htorrents, htorrent]
      rfl

theorem tryEmplace_of_reports {htid : tid < c.nextUid}
    (h : Reports (startTorrent machine c tid htid d).2) :
    ∃ t, c.tryEmplace machine.network tid d = .ok t := by
  cases htry : c.tryEmplace machine.network tid d with
  | ok t => exact ⟨t, rfl⟩
  | error stop =>
    simp only [startTorrent, htry] at h
    exact absurd h (not_reports_widen stop)

theorem tryEmplace_eq_getD (h : c.tryEmplace machine.network tid d = .ok t) :
    ∃ peers, (c.torrents tid).getD (.create tid d peers) = t := by
  unfold Session.tryEmplace at h
  cases hfound : c.torrents tid with
  | some t' =>
    rw [hfound] at h
    injection h with h
    exact ⟨[], h⟩
  | none =>
    rw [hfound] at h
    obtain ⟨peers, ht⟩ := construct_eq_create h
    exact ⟨peers, ht.symm⟩

theorem startTorrent_run {htid : tid < c.nextUid} (hs : Shows s c)
    (hloading : s.adder = .loading tid) (hlock : s.UniqueLock)
    (hreports : Reports (startTorrent machine c tid htid d).2) :
    ∃ s', Reaches (furrent env fuel n m) s s' ∧ Shows s' (startTorrent machine c tid htid d).1 ∧
      s'.adder = .idle := by
  obtain ⟨t, htry⟩ := tryEmplace_of_reports hreports
  have hstart := (startTorrent_of_tryEmplace htry).mp hreports
  -- The entry is the one that `try_emplace` leaves.
  obtain ⟨peers, hpeers⟩ := tryEmplace_eq_getD htry
  rw [← hs.torrents] at hpeers
  have htorrent : (s.tryEmplace tid (.create tid d peers)).torrent tid = t := by
    rw [State.torrent_tryEmplace, if_pos rfl, hpeers]
  have htorrents : ∀ t',
      ((s.tryEmplace tid (.create tid d peers)).setTorrent tid t').torrents =
        Function.update c.torrents tid (some t') := by
    intro t'
    show Function.update (Function.update s.torrents tid _) tid (some t') = _
    rw [Function.update_idem, hs.torrents]
  unfold startTorrent
  simp only [htry]
  by_cases hempty : t.peers = []
  · have hstep : Step env fuel s .adder _ :=
      .addWithoutPeers hloading hlock rfl (by rw [htorrent, hempty])
    refine ⟨_, .single ⟨_, hstep⟩, ?_, rfl⟩
    rw [htorrent, if_pos hempty]
    exact ⟨hs.tasks, htorrents _, hs.nextUid⟩
  · obtain ⟨ps, hpieces, hroom⟩ := hstart hempty
    have hr : (emplaceLoop tid t.descriptor ps c.tasks).2 = .ok () :=
      (emplaceLoop_returns_iff c.fits).mpr hroom
    obtain ⟨s₁, hgenerate, hadder, hnext, htasks, htorrents₁⟩ : ∃ s₁, Step env fuel s .adder s₁ ∧
        s₁.adder = .emplacing tid ps ∧ s₁.nextUid = s.nextUid ∧ s₁.tasks = s.tasks ∧
        s₁.torrents = (s.tryEmplace tid (.create tid d peers)).torrents :=
      ⟨_, .addGenerate hloading hlock rfl (by rw [htorrent]; exact hempty)
        (by rw [htorrent]; exact hpieces), rfl, rfl, rfl, rfl⟩
    have htorrent₁ : s₁.torrent tid = t := by
      rw [← htorrent, State.torrent, State.torrent, htorrents₁]
    obtain ⟨s', hrun, hidle, hnext', htasks', htorrents'⟩ := emplacing_run env fuel hadder
    refine ⟨s', .step hgenerate hrun, ?_, hidle⟩
    simp only [if_neg hempty, hpieces, Session.emplace, hr]
    refine ⟨?_, ?_, hnext'.trans (hnext.trans hs.nextUid)⟩
    · show s'.tasks = (emplaceLoop tid t.descriptor ps c.tasks).1
      rw [emplaceLoop_of_ok hr, htasks', htasks, hs.tasks, htorrent₁]
    · rw [htorrents', htorrent₁, State.setTorrent, htorrents₁]
      exact htorrents _

/-- A call that returns, alone, is a run of the program in which nobody else
    takes a step. -/
theorem addTorrent_run {filename : Bytes} (hs : Shows s c) (hidle : s.adder = .idle)
    (hlock : s.UniqueLock) (hreports : Reports (addTorrent machine c filename).2) :
    ∃ s', Reaches (furrent env fuel n m) s s' ∧ Shows s' (addTorrent machine c filename).1 ∧
      s'.adder = .idle := by
  obtain ⟨s₁, hbegin, hadder, htasks, htorrents, hnext, hlock₁⟩ : ∃ s₁, Step env fuel s .adder s₁ ∧
      s₁.adder = .loading c.nextUid ∧ s₁.tasks = s.tasks ∧ s₁.torrents = s.torrents ∧
      s₁.nextUid = s.nextUid + 1 ∧ s₁.UniqueLock :=
    ⟨_, .addBegin hidle, by rw [← hs.nextUid], rfl, rfl, rfl, hlock⟩
  have hs₁ : ∀ disk, Shows s₁ (c.countUp.onDisk disk) := fun disk =>
    ⟨htasks.trans hs.tasks, htorrents.trans hs.torrents, by rw [hnext, hs.nextUid]; rfl⟩
  rcases addTorrent_cases machine c filename with ⟨disk, stop, heq⟩ | ⟨disk, d, heq⟩
  · have hfail : Step env fuel s₁ .adder _ := .addFail hadder
    rw [heq]
    exact ⟨_, .step hbegin (.single ⟨_, hfail⟩),
      ⟨(hs₁ disk).tasks, (hs₁ disk).torrents, (hs₁ disk).nextUid⟩, rfl⟩
  · rw [heq] at hreports ⊢
    obtain ⟨s', hrun, hs', hidle'⟩ := startTorrent_run (hs₁ disk) hadder hlock₁ hreports
    exact ⟨s', .step hbegin hrun, hs', hidle'⟩

end

/-! ### Torrents that crash the program -/

/-- Nothing fails, and the tracker answers with `response`. -/
def healthy (response : Response) : Machine where
  cwd := []
  readFault := {}
  folderFaults := {}
  fileFaults := {}
  network := ⟨fun _ => response, fun _ => none, fun _ => none⟩
  sha1 := fun _ => []
  beyondText := fun _ => none
  beyondFiles := fun _ => none

/-- There is nothing but a file `t`. -/
def onlyFile (content : Bytes) : Session where
  tasks := []
  torrents := fun _ => none
  nextUid := 0
  downloadFolder := [46]
  disk := FileTree.bare.add [] [116] (.file content)
  numbered := fun _ h => absurd h List.not_mem_nil
  unnumbered := fun _ _ _ h => by injection h
  fits := Nat.zero_le _

/-- One file of one byte, with a hash for its piece. -/
def oneByteTree : BencodeValue :=
  .dict [(announceKey, .string []), (infoKey, .dict [(lengthKey, .int 1), (nameKey, .string [97]),
    (pieceLengthKey, .int 1), (piecesKey, .string (List.replicate 20 0))])]

-- Without a tracker there are no peers; with one peer it is started.
example :
    (addTorrent (healthy ⟨0, []⟩) (onlyFile (Bencode.encode oneByteTree)) [116]).2 =
      .error (.error .genericError) ∧
    (addTorrent (healthy ⟨200, Bencode.encode (response [1, 2, 3, 4, 5, 6])⟩)
      (onlyFile (Bencode.encode oneByteTree)) [116]).2 = .ok 0 := by
  refine ⟨?_, ?_⟩
  · decide +kernel
  · decide +kernel

/-- A file with `i1e` in it decodes to an integer, and the cast to a
    dictionary throws; a dictionary without the keys and one without hashes
    fare no better. A torrent with an empty file makes `touch` throw. And a
    good one makes the parser throw when the tracker sends `i1e`. -/
theorem addTorrent_throws :
    (decode (fun _ => none) [105, 49, 101] = .ok (.int 1) ∧
      (addTorrent (healthy ⟨0, []⟩) (onlyFile [105, 49, 101]) [116]).2 =
        .error (.throw .badCast)) ∧
    (decode (fun _ => none) [100, 101] = .ok (.dict []) ∧
      (addTorrent (healthy ⟨0, []⟩) (onlyFile [100, 101]) [116]).2 =
        .error (.throw (.outOfRange "map::at"))) ∧
    (decode (fun _ => none) (Bencode.encode (oneFileTree 1 1)) = .ok (oneFileTree 1 1) ∧
      (addTorrent (healthy ⟨0, []⟩) (onlyFile (Bencode.encode (oneFileTree 1 1))) [116]).2 =
        .error (.throw (.logicError
          "number of piece hashes does not match with length/pieceLength"))) ∧
    (decode (fun _ => none) (Bencode.encode (oneFileTree 0 1)) = .ok (oneFileTree 0 1) ∧
      (addTorrent (healthy ⟨0, []⟩) (onlyFile (Bencode.encode (oneFileTree 0 1))) [116]).2 =
        .error (.throw (.invalidArgument "empty file"))) ∧
    (decode (fun _ => none) (Bencode.encode oneByteTree) = .ok oneByteTree ∧
      (addTorrent (healthy ⟨200, [105, 49, 101]⟩) (onlyFile (Bencode.encode oneByteTree)) [116]).2 =
        .error (.throw .badCast)) := by
  refine ⟨⟨rfl, ?_⟩, ⟨rfl, ?_⟩, ⟨rfl, ?_⟩, ⟨rfl, ?_⟩, rfl, ?_⟩
  all_goals decide +kernel

end Furrent.Client
