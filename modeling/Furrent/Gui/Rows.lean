import Furrent.Gui.Window

/-! # What the rows show

    The numbers of the rows are given out by `add_torrent`, and every entry
    of `_torrents` stays. So `get_gui_data` finds what it is asked for, a
    row is removed once and does not come back, and what it shows has been
    so: the counter was not below what the row shows, and a row that shows
    `Completed` shows all pieces. The last point rests on the order in which
    `get_gui_data` loads the two atomics, and on the model: steps are taken
    one after the other, and every thread sees what the others have done.
    In `thread_main` the sum and the exchange of the state are
    `memory_order_relaxed`, so that the language itself does not promise
    that a thread which sees the new state also sees the last sum.

    The bar of a row is drawn with a division by the number of pieces. A
    torrent without pieces can be added, with a negative piece length: the
    program does not survive the first time its row is drawn. -/

namespace Furrent.Gui

open Cpp Transition Client

variable {n : Nat} {W : Type} {env : Peer → Download.Env W} {fuel : Nat}

/-! ### The client -/

section

variable {m : Nat} {s s' : State n m} {a : Actor n m} {tid : TorrentID}

/-- No step takes a piece back. -/
theorem counter_mono (h : Step env fuel s a s') (tid : TorrentID) :
    (s.torrent tid).piecesProcessed ≤ (s'.torrent tid).piecesProcessed := by
  rcases h.counter_cases tid with hsame | ⟨hnext, _⟩
  · exact le_of_eq hsame.symm
  · rw [hnext]
    omega

/-- A torrent that the program has set to `Completed` is in the log. -/
theorem completed_logged (h : Reachable ((furrent env fuel n m).restrict OwnStep) s)
    (hstate : (s.torrent tid).state = .completed) : tid ∈ s.log.completed := by
  refine h.invariant (I := fun s => ∀ tid, (s.torrent tid).state = .completed →
    tid ∈ s.log.completed) ?_ ?_ tid hstate
  · rintro _ ⟨files, rfl⟩ tid hstate
    cases hstate
  · rintro s a s' _ hs ⟨hstep, hown⟩ tid hstate
    have hmono : s.log.completed ⊆ s'.log.completed := hstep.log_mono.2
    have hentry := hstep.entry tid
    rw [State.torrent] at hstate
    generalize s'.torrents tid = entry at hentry hstate
    cases hentry with
    | same => exact hmono (hs tid hstate)
    | insert absent => cases hstate
    | count worker tid_eq => exact hmono (hs tid hstate)
    | complete actor worker last =>
      subst actor
      rw [last] at worker
      exact hstep.completed_of_counted worker
    | create => cases hstate
    | withoutPeers => cases hstate
    | finish => cases hstate
    | stop => cases hstate
    | store actor => exact absurd actor hown

/-- It has all its pieces. -/
theorem full_of_completed (h : Reachable ((furrent env fuel n m).restrict OwnStep) s)
    (hstate : (s.torrent tid).state = .completed) :
    (s.torrent tid).piecesProcessed = (s.torrent tid).descriptor.piecesCount :=
  ((counted_of_reachable h.of_restrict).completed tid (completed_logged h hstate)).2.1

theorem counter_le_of_reachable (h : Reachable (furrent env fuel n m) s)
    (htid : tid ∈ s.log.generated) :
    (s.torrent tid).piecesProcessed ≤ (s.torrent tid).descriptor.piecesCount := by
  obtain ⟨loc, _, hagrees⟩ := furrent_simulates.reachable h
  exact (counted_of_reachable h).counter_le hagrees (piecesCount_nonneg_of_reachable h tid htid)

theorem generated_of_emplacing (h : Reachable (furrent env fuel n m) s) {pieces : List Piece}
    (ha : s.adder = .emplacing tid pieces) : tid ∈ s.log.generated := by
  refine h.invariant (I := fun s => ∀ tid pieces, s.adder = .emplacing tid pieces →
    tid ∈ s.log.generated) ?_ ?_ tid pieces ha
  · rintro _ ⟨files, rfl⟩ tid pieces ha
    cases ha
  · intro s a s' _ hs hstep tid pieces ha
    by_cases hgen : s'.log.generated = s.log.generated
    · rcases hstep.emplacing ha with ⟨pieces₀, hold⟩ | ⟨_, _, hnew⟩
      · rw [hgen]
        exact hs tid pieces₀ hold
      · exact absurd hgen hnew
    · obtain ⟨tid', _, _, _, pieces', _, _, _, rfl⟩ := hstep.generated hgen
      injection ha with htid _
      rw [← htid]
      exact List.mem_cons_self

end

/-- The last step of `add_torrent` with success. -/
theorem adder_of_finishing {s s' : State n 1} {tid : TorrentID}
    (h : Step env fuel s .adder s') (ha : s.adder = .emplacing tid []) : s'.adder = .idle := by
  cases h with
  | addFinish => rfl
  | addFail => rfl
  | addWithoutPeers => rfl
  | addThrow => rfl
  | addBegin ha' => exact absurd (ha.symm.trans ha') (by simp)
  | addPrepare files ha' => exact absurd (ha.symm.trans ha') (by simp)
  | addGenerate ha' => exact absurd (ha.symm.trans ha') (by simp)
  | addEmplace ha' => exact absurd (ha.symm.trans ha') (by simp)

theorem adder_of_remover {s s' : State n 1} {j : Fin 1} (h : Step env fuel s (.remover j) s') :
    s'.adder = s.adder := by
  cases h <;> rfl

/-- `remove_torrent` keeps to the torrent it was called for. -/
theorem remover_of_called {s s' : State n 1} {tid : TorrentID}
    (h : Step env fuel s (.remover 0) s')
    (hr : s.removers 0 = .purged tid ∨ ∃ state, s.removers 0 = .loaded tid state) :
    s'.removers 0 = .idle ∨ ∃ state, s'.removers 0 = .loaded tid state := by
  cases h with
  | purge tid' hj => simp [hj] at hr
  | @load _ tid' hj hlock =>
    have htid : tid' = tid := by simpa [hj] using hr
    rw [State.removers_setRemover_self, htid]
    exact .inr ⟨_, rfl⟩
  | stop hj hstate => exact .inl (State.removers_setRemover_self ..)
  | keep hj hstate => exact .inl (State.removers_setRemover_self ..)

variable {w w' : Window n}

/-- The window takes only steps of the program itself. -/
theorem WindowStep.client (h : WindowStep env fuel w w') :
    w'.client = w.client ∨ ∃ a, Step env fuel w.client a w'.client ∧ a ≠ .outside := by
  cases h with
  | worker alive step => exact .inr ⟨_, step, by simp⟩
  | count =>
    left
    rename_i caller _ _ _ _ _
    cases caller <;> rfl
  | insert control step => exact .inr ⟨_, step, by simp⟩
  | insertNext control step => exact .inr ⟨_, step, by simp⟩
  | inserted control finishing step => exact .inr ⟨_, step, by simp⟩
  | insertFailed control loading step => exact .inr ⟨_, step, by simp⟩
  | insertThrew control loading step => exact .inr ⟨_, step, by simp⟩
  | confirm control opened step => exact .inr ⟨_, step, by simp⟩
  | removeNext control step => exact .inr ⟨_, step, by simp⟩
  | removed control step => exact .inr ⟨_, step, by simp⟩
  | _ => exact .inl rfl

theorem client_of_application (h : Reachable (application env fuel n) w) :
    Reachable ((furrent env fuel n 1).restrict OwnStep) w.client := by
  apply h.invariant (I := fun w => Reachable ((furrent env fuel n 1).restrict OwnStep) w.client)
  · rintro _ ⟨files, rfl⟩
    exact .init ⟨files, rfl⟩
  · intro w _ w' _ hw hstep
    rcases hstep.client with hsame | ⟨a, hclient, hown⟩
    · rw [hsame]
      exact hw
    · exact hw.step ⟨hclient, hown⟩

/-! ### What a row says -/

/-- What a row shows of a torrent has been so. -/
structure Truthful (s : State n 1) (row : TorrentGuiData) : Prop where
  generated : row.tid ∈ s.log.generated
  filename : row.filename = (s.torrent row.tid).descriptor.name
  piecesCount : row.piecesCount = (s.torrent row.tid).descriptor.piecesCount
  nonneg : 0 ≤ row.piecesProcessed
  piecesProcessed : row.piecesProcessed ≤ (s.torrent row.tid).piecesProcessed
  completed : row.state = .completed → row.piecesProcessed = row.piecesCount

theorem Truthful.step {s s' : State n 1} {a : Actor n 1} {row : TorrentGuiData}
    (hreach : Reachable (furrent env fuel n 1) s) (hstep : Step env fuel s a s')
    (h : Truthful s row) : Truthful s' row := by
  have hdesc := hstep.descriptor_of_generated (fresh_of_reachable hreach) row.tid h.generated
  refine ⟨hstep.generated_subset h.generated, ?_, ?_, h.nonneg, ?_, h.completed⟩
  · rw [hdesc]
    exact h.filename
  · rw [hdesc]
    exact h.piecesCount
  · exact le_trans h.piecesProcessed (counter_mono hstep row.tid)

/-- When all atomics have been loaded. -/
theorem truthful_guiData {s : State n 1} {tid : TorrentID} {state : TorrentState} {t : Torrent}
    (hreach : Reachable (furrent env fuel n 1) s) (hgen : tid ∈ s.log.generated)
    (ht : s.torrents tid = some t)
    (hstate : state = .completed →
      (s.torrent tid).piecesProcessed = (s.torrent tid).descriptor.piecesCount) :
    Truthful s (guiData tid state t) := by
  have htorrent : s.torrent tid = t := State.torrent_of_entry ht
  have hcounter := (counted_of_reachable hreach).counter tid
  rw [htorrent] at hstate hcounter
  refine ⟨hgen, ?_, ?_, ?_, ?_, hstate⟩
  · exact congrArg (·.descriptor.name) htorrent.symm
  · exact congrArg (·.descriptor.piecesCount) htorrent.symm
  · show 0 ≤ t.piecesProcessed
    rw [hcounter]
    exact Int.natCast_nonneg _
  · exact le_of_eq (congrArg Torrent.piecesProcessed htorrent.symm)

/-! ### The window -/

/-- What `get_gui_data` is asked for. -/
def Window.Asks (w : Window n) (tid : TorrentID) : Caller → Prop
  | .insert => tid ∈ w.client.log.generated ∧ tid ∉ w.torrents.map TorrentGuiData.tid
  | .update k => ∃ row, w.torrents[k]? = some row ∧ row.tid = tid

structure Window.Tidy (w : Window n) : Prop where
  nodup : (w.torrents.map TorrentGuiData.tid).Nodup
  rows : ∀ row ∈ w.torrents, Truthful w.client row
  dialog : w.dialog.deleteTorrent = true →
    w.dialog.torrent.tid ∈ w.torrents.map TorrentGuiData.tid
  adder : w.control ≠ .inserting → w.client.adder = .idle
  inserting : ∀ tid pieces, w.client.adder = .emplacing tid pieces →
    tid ∉ w.torrents.map TorrentGuiData.tid
  reading : ∀ caller tid, w.control = .reading caller tid → w.Asks tid caller
  loaded : ∀ caller tid state, w.control = .loaded caller tid state → w.Asks tid caller ∧
    (state = .completed →
      (w.client.torrent tid).piecesProcessed = (w.client.torrent tid).descriptor.piecesCount)
  removing : ∀ tid, w.control = .removing tid → w.dialog.deleteTorrent = false ∧
    tid ∈ w.torrents.map TorrentGuiData.tid ∧
    (w.client.removers 0 = .purged tid ∨ ∃ state, w.client.removers 0 = .loaded tid state)

theorem Window.Asks.generated {tid : TorrentID} {caller : Caller} (h : w.Asks tid caller)
    (hw : w.Tidy) : tid ∈ w.client.log.generated := by
  cases caller with
  | insert => exact h.1
  | update k =>
    obtain ⟨row, hrow, htid⟩ := h
    rw [← htid]
    exact (hw.rows row (List.mem_of_getElem? hrow)).generated

theorem Window.Tidy.generated_of_mem (h : w.Tidy) {tid : TorrentID}
    (htid : tid ∈ w.torrents.map TorrentGuiData.tid) : tid ∈ w.client.log.generated := by
  obtain ⟨row, hrow, rfl⟩ := List.mem_map.mp htid
  exact (h.rows row hrow).generated

/-- The controls that have to do with no call. -/
def Control.Plain : Control → Prop
  | .inserting => False
  | .reading _ _ => False
  | .loaded _ _ _ => False
  | .removing _ => False
  | _ => True

theorem Window.Tidy.goTo (h : w.Tidy) (hfrom : w.control ≠ .inserting) {control : Control}
    (hto : control.Plain) : Window.Tidy { w with control := control } := by
  refine ⟨h.nodup, h.rows, h.dialog, fun _ => h.adder hfrom, h.inserting, ?_, ?_, ?_⟩
  · rintro caller tid rfl
    exact hto.elim
  · rintro caller tid state rfl
    exact hto.elim
  · rintro tid rfl
    exact hto.elim

/-- A step of a worker. -/
theorem Window.Tidy.worker (h : w.Tidy) (hreach : Reachable (furrent env fuel n 1) w.client)
    {i : Fin n} {client : State n 1} (hstep : Step env fuel w.client (.worker i) client) :
    Window.Tidy { w with client := client } := by
  obtain ⟨hadder, hremovers⟩ := hstep.callers_of_worker
  have hasks : ∀ {tid caller}, w.Asks tid caller →
      Window.Asks { w with client := client } tid caller := by
    intro tid caller hasks
    cases caller with
    | insert => exact ⟨hstep.generated_subset hasks.1, hasks.2⟩
    | update k => exact hasks
  refine ⟨h.nodup, fun row hrow => (h.rows row hrow).step hreach hstep, h.dialog, ?_, ?_, ?_, ?_,
    ?_⟩
  · intro hcontrol
    exact hadder.trans (h.adder hcontrol)
  · intro tid pieces ha
    exact h.inserting tid pieces (hadder.symm.trans ha)
  · intro caller tid hcontrol
    exact hasks (h.reading caller tid hcontrol)
  · intro caller tid state hcontrol
    obtain ⟨hask, hfull⟩ := h.loaded caller tid state hcontrol
    refine ⟨hasks hask, ?_⟩
    intro hstate
    -- The counter has nowhere to go.
    have hgen := hask.generated h
    have hdesc := hstep.descriptor_of_generated (fresh_of_reachable hreach) tid hgen
    have hle := counter_le_of_reachable (hreach.step hstep) (hstep.generated_subset hgen)
    have hmono := counter_mono hstep tid
    have hnow := hfull hstate
    show (client.torrent tid).piecesProcessed = (client.torrent tid).descriptor.piecesCount
    rw [hdesc] at hle ⊢
    omega
  · intro tid hcontrol
    rw [show ({ w with client := client } : Window n).client.removers = _ from hremovers]
    exact h.removing tid hcontrol

theorem map_tid_set {rows : List TorrentGuiData} {k : Nat} {row data : TorrentGuiData}
    (hrow : rows[k]? = some row) (htid : data.tid = row.tid) :
    (rows.set k data).map TorrentGuiData.tid = rows.map TorrentGuiData.tid := by
  obtain ⟨hlt, rfl⟩ := List.getElem?_eq_some_iff.mp hrow
  rw [List.map_set, htid, ← List.getElem_map TorrentGuiData.tid (h := by simpa using hlt),
    List.set_getElem_self]

/-- What `get_gui_data` returns is put into the rows. -/
theorem Window.Tidy.display (h : w.Tidy) (hfrom : w.control ≠ .inserting) {caller : Caller}
    {data : TorrentGuiData} (hasks : w.Asks data.tid caller) (hdata : Truthful w.client data) :
    (w.display data caller).Tidy := by
  cases caller with
  | insert =>
    have htids : (w.torrents ++ [data]).map TorrentGuiData.tid
        = w.torrents.map TorrentGuiData.tid ++ [data.tid] := by simp
    refine ⟨?_, ?_, ?_, fun _ => h.adder hfrom, ?_, by simp [Window.display],
      by simp [Window.display], by simp [Window.display]⟩
    · show ((w.torrents ++ [data]).map TorrentGuiData.tid).Nodup
      rw [htids]
      exact List.nodup_append.mpr ⟨h.nodup, by simp, by
        rintro tid htid _ hdata rfl
        rw [List.mem_singleton.mp hdata] at htid
        exact hasks.2 htid⟩
    · intro row hrow
      rcases List.mem_append.mp hrow with hrow | hrow
      · exact h.rows row hrow
      · rw [List.mem_singleton.mp hrow]
        exact hdata
    · intro hopen
      show _ ∈ (w.torrents ++ [data]).map TorrentGuiData.tid
      rw [htids]
      exact List.mem_append_left _ (h.dialog hopen)
    · intro tid pieces ha
      exact absurd ((h.adder hfrom).symm.trans ha) (by simp)
  | update k =>
    obtain ⟨row, hrow, htid⟩ := hasks
    have htids : ((w.torrents.set k data).map TorrentGuiData.tid)
        = w.torrents.map TorrentGuiData.tid := map_tid_set hrow htid.symm
    refine ⟨?_, ?_, ?_, fun _ => h.adder hfrom, ?_, by simp [Window.display],
      by simp [Window.display], by simp [Window.display]⟩
    · show ((w.torrents.set k data).map TorrentGuiData.tid).Nodup
      rw [htids]
      exact h.nodup
    · intro row' hrow'
      rcases List.mem_or_eq_of_mem_set hrow' with hold | rfl
      · exact h.rows row' hold
      · exact hdata
    · intro hopen
      show _ ∈ (w.torrents.set k data).map TorrentGuiData.tid
      rw [htids]
      exact h.dialog hopen
    · intro tid pieces ha
      exact absurd ((h.adder hfrom).symm.trans ha) (by simp)

theorem WindowStep.tidy (hstep : WindowStep env fuel w w')
    (hreach : Reachable ((furrent env fuel n 1).restrict OwnStep) w.client) (h : w.Tidy) :
    w'.Tidy := by
  have hclient := hreach.of_restrict
  have hrows : ∀ {a client}, Step env fuel w.client a client →
      ∀ row ∈ w.torrents, Truthful client row :=
    fun step row hrow => (h.rows row hrow).step hclient step
  cases hstep with
  | worker alive step => exact h.worker hclient step
  | close control => exact h.goTo (by simp [control]) trivial
  | update control => exact h.goTo (by simp [control]) trivial
  | tooEarly control => exact h.goTo (by simp [control]) trivial
  | updated control last => exact h.goTo (by simp [control]) trivial
  | notFound control absent => exact h.goTo (by simp [control]) trivial
  | draw control drawn => exact h.goTo (by simp [control]) trivial
  | drawTrap control drawn => exact h.goTo (by simp [control]) trivial
  | noFile control => exact h.goTo (by simp [control]) trivial
  | noDialog control closed => exact h.goTo (by simp [control]) trivial
  | noAnswer control opened => exact h.goTo (by simp [control]) trivial
  | @updateNext k row control found =>
    refine ⟨h.nodup, h.rows, h.dialog, fun _ => h.adder (by simp [control]), h.inserting, ?_,
      by simp, by simp⟩
    intro caller tid hnow
    injection hnow with hcaller htid
    subst hcaller htid
    exact ⟨row, found, rfl⟩
  | @load caller tid t control found =>
    refine ⟨h.nodup, h.rows, h.dialog, fun _ => h.adder (by simp [control]), h.inserting, by simp,
      ?_, by simp⟩
    intro caller' tid' state' hnow
    injection hnow with hcaller htid hstate
    subst hcaller htid hstate
    refine ⟨h.reading caller tid control, ?_⟩
    intro hcompleted
    rw [← State.torrent_of_entry found] at hcompleted
    exact full_of_completed hreach hcompleted
  | @count caller tid state t control found =>
    obtain ⟨hasks, hstate⟩ := h.loaded caller tid state control
    exact h.display (by simp [control]) hasks
      (truthful_guiData hclient (hasks.generated h) found hstate)
  | @press above k items row control drawn visible pressed =>
    refine ⟨h.nodup, h.rows, ?_, fun _ => h.adder (by simp [control]), h.inserting, by simp,
      by simp, by simp⟩
    intro _
    exact List.mem_map_of_mem (List.mem_of_getElem? pressed)
  | @insert client control step =>
    refine ⟨h.nodup, hrows step, h.dialog, by simp, ?_, by simp, by simp, by simp⟩
    intro tid pieces ha
    have hidle := h.adder (by simp [control])
    rcases step.emplacing ha with ⟨pieces₀, hold⟩ | ⟨hold, _⟩
    · exact absurd (hidle.symm.trans hold) (by simp)
    · exact absurd (hidle.symm.trans hold) (by simp)
  | @insertNext client control step running =>
    refine ⟨h.nodup, hrows step, h.dialog, fun hnot => absurd control hnot, ?_, by simp [control],
      by simp [control], by simp [control]⟩
    intro tid pieces ha htid
    rcases step.emplacing ha with ⟨pieces₀, hold⟩ | ⟨hloading, _⟩
    · exact h.inserting tid pieces₀ hold htid
    · -- A number that is being loaded has no row.
      exact ((fresh_of_reachable hclient).loading tid hloading).2 (h.generated_of_mem htid)
  | @inserted tid client control finishing step =>
    have hidle : client.adder = .idle := adder_of_finishing step finishing
    refine ⟨h.nodup, hrows step, h.dialog, fun _ => hidle, by simp [hidle], ?_, by simp, by simp⟩
    intro caller tid' hnow
    injection hnow with hcaller htid
    subst hcaller htid
    exact ⟨step.generated_subset (generated_of_emplacing hclient finishing),
      h.inserting tid [] finishing⟩
  | insertFailed control loading step returned =>
    exact ⟨h.nodup, hrows step, h.dialog, fun _ => returned, by simp [returned], by simp, by simp,
      by simp⟩
  | insertThrew control loading step returned =>
    exact ⟨h.nodup, hrows step, h.dialog, fun _ => returned, by simp [returned], by simp, by simp,
      by simp⟩
  | dismiss control opened =>
    exact ⟨h.nodup, h.rows, by simp [Window.setDialog, Window.dialog],
      fun _ => h.adder (by simp [control]), h.inserting, by simp, by simp, by simp⟩
  | @confirm client control opened step purged =>
    have hidle : client.adder = .idle := (adder_of_remover step).trans (h.adder (by simp [control]))
    refine ⟨h.nodup, hrows step, by simp [Window.setDialog, Window.dialog], fun _ => hidle,
      by simp [hidle], by simp, by simp, ?_⟩
    intro tid hnow
    injection hnow with htid
    subst htid
    exact ⟨rfl, h.dialog opened, .inl purged⟩
  | @removeNext tid client control step running =>
    have hidle : client.adder = .idle := (adder_of_remover step).trans (h.adder (by simp [control]))
    refine ⟨h.nodup, hrows step, h.dialog, fun _ => hidle, by simp [hidle], by simp [control],
      by simp [control], ?_⟩
    intro tid' hnow
    obtain ⟨hclosed, hmem, hcalled⟩ := h.removing tid' hnow
    exact ⟨hclosed, hmem, .inr ((remover_of_called step hcalled).resolve_left running)⟩
  | @removed tid client control step returned =>
    have hidle : client.adder = .idle := (adder_of_remover step).trans (h.adder (by simp [control]))
    obtain ⟨hclosed, _⟩ := h.removing tid control
    refine ⟨?_, ?_, ?_, fun _ => hidle, by simp [hidle], by simp, by simp, by simp⟩
    · exact h.nodup.sublist (List.filter_sublist.map _)
    · intro row hrow
      exact hrows step row (List.mem_filter.mp hrow).1
    · intro hopen
      exact absurd (hclosed.symm.trans hopen) (by simp)

theorem tidy_of_reachable (h : Reachable (application env fuel n) w) : w.Tidy := by
  apply h.invariant (I := Window.Tidy)
  · rintro _ ⟨files, rfl⟩
    refine ⟨by simp [Window.start, Window.torrents, ScrollTorrentState.empty], ?_, ?_, fun _ => rfl,
      ?_, ?_, ?_, ?_⟩
    · simp [Window.start, Window.torrents, ScrollTorrentState.empty]
    · simp [Window.start, Window.dialog, ScrollTorrentState.empty]
    · simp [Window.start, State.start]
    · simp [Window.start]
    · simp [Window.start]
    · simp [Window.start]
  · intro w _ w' hreach hw hstep
    exact hstep.tidy (client_of_application hreach) hw

/-! ### A row that is gone -/

/-- The torrent has been added, and no row shows it or is about to. -/
structure Window.Gone (w : Window n) (tid : TorrentID) : Prop where
  generated : tid ∈ w.client.log.generated
  absent : tid ∉ w.torrents.map TorrentGuiData.tid
  adder : ∀ pieces, w.client.adder ≠ .emplacing tid pieces
  reading : w.control ≠ .reading .insert tid
  loaded : ∀ state, w.control ≠ .loaded .insert tid state

theorem Window.Gone.client {tid : TorrentID} (h : w.Gone tid)
    (hreach : Reachable (furrent env fuel n 1) w.client) {a : Actor n 1} {client : State n 1}
    (hstep : Step env fuel w.client a client) :
    tid ∈ client.log.generated ∧ ∀ pieces, client.adder ≠ .emplacing tid pieces := by
  refine ⟨hstep.generated_subset h.generated, ?_⟩
  intro pieces ha
  rcases hstep.emplacing ha with ⟨pieces₀, hold⟩ | ⟨hloading, _⟩
  · exact h.adder pieces₀ hold
  · exact ((fresh_of_reachable hreach).loading tid hloading).2 h.generated

theorem WindowStep.gone {tid : TorrentID} (hstep : WindowStep env fuel w w')
    (hreach : Reachable (furrent env fuel n 1) w.client) (hw : w.Tidy) (h : w.Gone tid) :
    w'.Gone tid := by
  have hclient : tid ∈ w'.client.log.generated ∧
      ∀ pieces, w'.client.adder ≠ .emplacing tid pieces := by
    rcases hstep.client with hsame | ⟨a, hclient, _⟩
    · rw [hsame]
      exact ⟨h.generated, h.adder⟩
    · exact h.client hreach hclient
  obtain ⟨hgen, hadder⟩ := hclient
  cases hstep with
  | @load caller tid' t control found =>
    refine ⟨hgen, h.absent, hadder, by simp, ?_⟩
    intro state hnow
    injection hnow with hcaller htid _
    subst hcaller htid
    exact h.reading control
  | @count caller tid' state t control found =>
    obtain ⟨hasks, _⟩ := hw.loaded caller tid' state control
    cases caller with
    | insert =>
      refine ⟨hgen, ?_, hadder, by simp [Window.display], by simp [Window.display]⟩
      intro hmem
      have hmem' : tid ∈ (w.torrents ++ [guiData tid' state t]).map TorrentGuiData.tid := hmem
      rw [List.map_append, List.mem_append] at hmem'
      rcases hmem' with hold | hnew
      · exact h.absent hold
      · have htid : tid = tid' := by simpa [guiData] using hnew
        subst htid
        exact h.loaded state control
    | update k =>
      obtain ⟨row, hrow, htid⟩ := hasks
      refine ⟨hgen, ?_, hadder, by simp [Window.display], by simp [Window.display]⟩
      show tid ∉ (w.torrents.set k (guiData tid' state t)).map TorrentGuiData.tid
      rw [map_tid_set hrow htid.symm]
      exact h.absent
  | @inserted tid' client control finishing step =>
    refine ⟨hgen, h.absent, hadder, ?_, by simp⟩
    intro hnow
    injection hnow with _ htid
    subst htid
    exact h.adder [] finishing
  | @removed tid' client control step returned =>
    refine ⟨hgen, ?_, hadder, by simp, by simp⟩
    intro hmem
    exact h.absent ((List.filter_sublist.map _).subset hmem)
  | worker alive step => exact ⟨hgen, h.absent, hadder, h.reading, h.loaded⟩
  | insertNext control step running =>
    exact ⟨hgen, h.absent, hadder, by simp [control], by simp [control]⟩
  | removeNext control step running =>
    exact ⟨hgen, h.absent, hadder, by simp [control], by simp [control]⟩
  | _ => exact ⟨hgen, h.absent, hadder, by simp, by simp⟩

/-- `remove_torrent` returns, and the row is erased. -/
theorem WindowStep.gone_of_removing {tid : TorrentID} (hstep : WindowStep env fuel w w')
    (h : Reachable (application env fuel n) w) (hcontrol : w.control = .removing tid)
    (hdone : w'.control = .head) : w'.Gone tid := by
  have hw := tidy_of_reachable h
  have hgen := hw.generated_of_mem (hw.removing tid hcontrol).2.1
  cases hstep with
  | @removed tid' client control step returned =>
    have htid : tid' = tid := by simpa using control.symm.trans hcontrol
    subst htid
    have hadder := (adder_of_remover step).trans (hw.adder (by simp [control]))
    refine ⟨step.generated_subset hgen, ?_, by simp [hadder], by simp, by simp⟩
    intro hmem
    obtain ⟨row, hrow, hrowtid⟩ := List.mem_map.mp hmem
    have hne : row.tid ≠ tid' := of_decide_eq_true (List.mem_filter.mp hrow).2
    exact hne hrowtid
  | _ => simp_all

/-! ### A run -/

/-- All tasks of the torrent are emplaced. -/
theorem emplaced {tid : TorrentID} (pieces : List Piece)
    (h : Reachable (application env fuel n) w) (hcontrol : w.control = .inserting)
    (ha : w.client.adder = .emplacing tid pieces) :
    ∃ w', Reachable (application env fuel n) w' ∧ w'.control = .inserting ∧
      w'.scroller = w.scroller ∧
      w'.client = { w.client with
        adder := .emplacing tid []
        tasks := w.client.tasks ++
          pieces.map fun piece => ⟨none, tid, piece, (w.client.torrent tid).descriptor⟩ } := by
  induction pieces generalizing w with
  | nil =>
    refine ⟨w, h, hcontrol, rfl, ?_⟩
    rw [List.map_nil, List.append_nil, ← ha]
  | cons piece pieces ih =>
    have hstep := h.step (a := ()) (.insertNext hcontrol (.addEmplace ha) (by simp))
    obtain ⟨w', h', hcontrol', hscroller', hclient'⟩ := ih hstep hcontrol rfl
    refine ⟨w', h', hcontrol', hscroller', ?_⟩
    rw [hclient']
    simp [Policy.Queue.emplace, State.torrent]

/-- What a worker does, the window can let it do at any time. -/
theorem worker_runs {s : State n 1} {i : Fin n} (h : Reachable (application env fuel n) w)
    (halive : w.control.Alive)
    (hrun : Reaches ((furrent env fuel n 1).restrict (WorkerAlone i)) w.client s) :
    Reachable (application env fuel n) { w with client := s } := by
  apply hrun.invariant
    (I := fun s => Reachable (application env fuel n) { w with client := s }) ?_ h
  intro s a s' hs hstep
  obtain ⟨hstep, rfl, _⟩ := hstep
  exact hs.step (a := ()) (.worker halive hstep)

variable (env fuel n) in
/-- The first torrent is added and its row is about to be drawn. -/
theorem row_shown (d : TorrentFile) {peers : List Peer} (hpeers : peers ≠ [])
    {beyond : Nat → Option Int} {pieces : List Piece}
    (hpieces : Torrent.pieces d beyond = .ok pieces) :
    ∃ w : Window n, Reachable (application env fuel n) w ∧ w.control = .drawing ∧
      w.torrents = [⟨0, .downloading, d.name, 0, d.piecesCount⟩] ∧
      w.client.torrents 0 = some { Torrent.create 0 d peers with state := .downloading } ∧
      w.client.removers 0 = .idle ∧ w.dialog.deleteTorrent = false ∧
      (∀ i, w.client.workers i = .idle) ∧ w.client.files = onePieceOnDisk ∧
      w.client.tasks = pieces.map fun piece => ⟨none, 0, piece, d⟩ := by
  have hstart : Reachable (application env fuel n) (Window.start onePieceOnDisk) := .init ⟨_, rfl⟩
  have hdraw : renderTorrents (Window.start onePieceOnDisk : Window n).torrents 0 = .ok [] := rfl
  have hdialog := (hstart.step (a := ()) (.tooEarly rfl)).step (a := ()) (.draw rfl hdraw)
  have hbegin := hdialog.step (a := ()) (.insert rfl (.addBegin rfl))
  have hgenerate := hbegin.step (a := ()) (.insertNext rfl (.addGenerate rfl
    ⟨by simp [Window.start, State.start], by simp [Window.start, State.start],
      by simp [Window.start, State.start]⟩
    (rfl : _ = State.tryEmplace _ 0 (.create 0 d peers)) hpeers hpieces) (by simp))
  obtain ⟨w₁, h₁, hcontrol₁, hscroller₁, hclient₁⟩ := emplaced pieces hgenerate rfl rfl
  have hadder₁ : w₁.client.adder = .emplacing 0 [] := by
    rw [hclient₁]
    rfl
  have hentry₁ : w₁.client.torrents 0 = some (.create 0 d peers) := by
    rw [hclient₁]
    rfl
  have hinserted := h₁.step (a := ()) (.inserted hcontrol₁ hadder₁ (.addFinish hadder₁))
  have hentry : (w₁.client.setTorrent 0
      { w₁.client.torrent 0 with state := .downloading }).torrents 0
      = some { Torrent.create 0 d peers with state := .downloading } := by
    rw [State.torrents_setTorrent_self, State.torrent_of_entry hentry₁]
  have hcounted := (hinserted.step (a := ()) (.load rfl hentry)).step (a := ()) (.count rfl hentry)
  have hclosed : w₁.scroller.dialog.deleteTorrent = false := by
    rw [hscroller₁]
    rfl
  have hhead := (hcounted.step (a := ()) (.noDialog rfl hclosed)).step (a := ()) (.tooEarly rfl)
  refine ⟨_, hhead, rfl, ?_, hentry, ?_, hclosed, ?_, ?_, ?_⟩
  · show w₁.scroller.torrents ++ [_] = _
    rw [hscroller₁]
    rfl
  · show w₁.client.removers 0 = .idle
    rw [hclient₁]
    rfl
  · intro i
    show w₁.client.workers i = .idle
    rw [hclient₁]
    rfl
  · show w₁.client.files = onePieceOnDisk
    rw [hclient₁]
    rfl
  · show w₁.client.tasks = _
    rw [hclient₁]
    rfl

/-! ### Results -/

/-- In every reachable state the rows show different torrents, what they
    show has been so, and `get_gui_data` finds the torrent it is asked
    for. -/
theorem rows_truthful (h : Reachable (application env fuel n) w) :
    (w.torrents.map TorrentGuiData.tid).Nodup ∧
    (∀ row ∈ w.torrents, Truthful w.client row ∧ row.piecesProcessed ≤ row.piecesCount) ∧
    ∀ caller tid, w.control = .reading caller tid → ∃ t, w.client.torrents tid = some t := by
  have hw := tidy_of_reachable h
  have hclient := (client_of_application h).of_restrict
  refine ⟨hw.nodup, ?_, ?_⟩
  · intro row hrow
    have htrue := hw.rows row hrow
    refine ⟨htrue, ?_⟩
    rw [htrue.piecesCount]
    exact le_trans htrue.piecesProcessed (counter_le_of_reachable hclient htrue.generated)
  · intro caller tid hcontrol
    exact entry_of_generated hclient ((hw.reading caller tid hcontrol).generated hw)

/-- The worker downloads, counts and completes the torrent, and the window
    refreshes its row. -/
theorem rows_truthful_completed : ∃ w : Window 1,
    Reachable (application (fun _ => Download.listEnv) 8 1) w ∧
    w.torrents = [⟨0, .completed, onePiece.name, 1, 1⟩] ∧
    ∀ row ∈ w.torrents, Truthful w.client row := by
  obtain ⟨w, h, hcontrol, hrows, ht, hidle, hclosed, hworkers, hfiles, htasks⟩ :=
    row_shown 1 (fun _ => Download.listEnv) 8 onePiece (show [(⟨1, 2⟩ : Peer)] ≠ [] by decide)
      (show Torrent.pieces onePiece (fun _ => some 0) = .ok [⟨0, [⟨[97], 0, 3⟩]⟩] by decide)
  have hadder : w.client.adder = .idle := (tidy_of_reachable h).adder (by simp [hcontrol])
  have hj : ∀ j, w.client.removers j = .idle := fun j => by rw [Subsingleton.elim j 0, hidle]
  obtain ⟨s₁, htakes, hi₁, hj₁, hadder₁, hfiles₁, ht₁⟩ : ∃ s₁ : State 1 1,
      Reaches ((furrent (fun _ => Download.listEnv) 8 1 1).restrict (WorkerAlone 0)) w.client s₁ ∧
      s₁.workers 0 = .working onePieceTask [⟨1, 2⟩] ∧ (∀ j, s₁.removers j = .idle) ∧
      s₁.adder = .idle ∧ s₁.files = onePieceOnDisk ∧ s₁.torrents 0 = some onePieceTorrent :=
    ⟨_, takes_task _ _ (hworkers 0) hj hadder htasks ht (by decide), rfl, hj, hadder, hfiles, ht⟩
  have hprocess : (process Download.listEnv 8 onePieceTask Download.answers (fun _ => {})
      s₁.files).2.2 = .ok true := by
    rw [hfiles₁]
    decide +kernel
  have hpeer : [(⟨1, 2⟩ : Peer)][0]? = some ⟨1, 2⟩ := rfl
  obtain ⟨s₂, hfinishes, hi₂, hj₂, ht₂⟩ : ∃ s₂ : State 1 1,
      Reaches ((furrent (fun _ => Download.listEnv) 8 1 1).restrict (WorkerAlone 0)) s₁ s₂ ∧
      s₂.workers 0 = .counted 0 1 ∧ (∀ j, s₂.removers j = .idle) ∧
      s₂.torrents 0 = some { onePieceTorrent with peersScore := [2], piecesProcessed := 1 } := by
    obtain ⟨files, hrun⟩ : ∃ files,
        Reaches ((furrent (fun _ => Download.listEnv) 8 1 1).restrict (WorkerAlone 0)) s₁ _ :=
      finishes_task 0 hi₁ hj₁ hadder₁ hpeer hprocess ht₁
    exact ⟨_, hrun, rfl, hj₁, rfl⟩
  obtain ⟨s₃, hcomplete, ht₃⟩ : ∃ s₃ : State 1 1,
      Step (fun _ => Download.listEnv) 8 s₂ (.worker 0) s₃ ∧ s₃.torrents 0 = some
        { onePieceTorrent with
          state := .completed, peersScore := [2], piecesProcessed := 1 } := by
    refine ⟨_, .complete hi₂ (by rw [State.torrent_of_entry ht₂]; rfl), ?_⟩
    show some { s₂.torrent 0 with state := .completed } = _
    rw [State.torrent_of_entry ht₂]
  have hdone := worker_runs h (by rw [hcontrol]; trivial)
    ((htakes.trans hfinishes).tail ⟨_, hcomplete, rfl, hj₂⟩)
  -- One turn of the loop to the head, and the next one to the row.
  obtain ⟨items, hdrawn⟩ : ∃ items, renderTorrents w.torrents 0 = .ok items := by
    rw [hrows]
    exact ⟨_, rfl⟩
  have hhead := ((hdone.step (a := ()) (.draw hcontrol hdrawn)).step (a := ()) (.noFile rfl)).step
    (a := ()) (.noDialog rfl hclosed)
  have hreading := (hhead.step (a := ()) (.update rfl)).step (a := ())
    (.updateNext rfl (show w.torrents[0]? = some _ by rw [hrows]; rfl))
  have hshown := (hreading.step (a := ()) (.load rfl ht₃)).step (a := ()) (.count rfl ht₃)
  refine ⟨_, hshown, ?_, fun row hrow => ((rows_truthful hshown).2.1 row hrow).1⟩
  show w.torrents.set 0 _ = _
  rw [hrows]
  rfl

/-- When the window calls `remove_torrent`, the torrent is in the map already:
    the call does not insert an entry. When it has returned, the torrent has
    no row and never gets one, and the call is not made again. -/
theorem removed_for_good {w₁ : Window n} {tid : TorrentID}
    (h : Reachable (application env fuel n) w) (hcall : WindowStep env fuel w w₁)
    (hbefore : w.control ≠ .removing tid) (hcontrol : w₁.control = .removing tid) :
    (∃ t, w.client.torrents tid = some t) ∧
    ∀ w₂ w₃ w', Reaches (application env fuel n) w₁ w₂ → w₂.control = .removing tid →
      WindowStep env fuel w₂ w₃ → w₃.control = .head → Reaches (application env fuel n) w₃ w' →
      tid ∉ w'.torrents.map TorrentGuiData.tid ∧ w'.control ≠ .removing tid := by
  have hw := tidy_of_reachable h
  constructor
  · cases hcall with
    | confirm control opened step purged =>
      injection hcontrol with htid
      subst htid
      exact entry_of_generated (client_of_application h).of_restrict
        (hw.generated_of_mem (hw.dialog opened))
    | @count caller => cases caller <;> cases hcontrol
    | _ => simp_all
  · intro w₂ w₃ w' hreaches₂ hcontrol₂ hreturn hdone hreaches
    have h₂ := (h.step (a := ()) hcall).trans hreaches₂
    have hgone := hreturn.gone_of_removing h₂ hcontrol₂ hdone
    obtain ⟨hreach', hgone'⟩ := hreaches.invariant
      (I := fun w => Reachable (application env fuel n) w ∧ w.Gone tid)
      (by
        rintro w _ w' ⟨hreach, hgone⟩ hstep
        exact ⟨hreach.step hstep, hstep.gone (client_of_application hreach).of_restrict
          (tidy_of_reachable hreach) hgone⟩)
      ⟨h₂.step (a := ()) hreturn, hgone⟩
    refine ⟨hgone'.absent, ?_⟩
    intro hagain
    exact hgone'.absent ((tidy_of_reachable hreach').removing tid hagain).2.1

/-- The user removes the only torrent. -/
theorem removed_for_good_one_piece : ∃ w : Window 1,
    Reachable (application (fun _ => Download.listEnv) 8 1) w ∧ w.control = .head ∧
    ∀ w', Reaches (application (fun _ => Download.listEnv) 8 1) w w' →
      0 ∉ w'.torrents.map TorrentGuiData.tid := by
  obtain ⟨w, h, hcontrol, hrows, hentry, hidle, _⟩ := row_shown 1 (fun _ => Download.listEnv) 8
    onePiece (show [(⟨1, 2⟩ : Peer)] ≠ [] by decide)
    (show Torrent.pieces onePiece (fun _ => some 0) = .ok [⟨0, [⟨[97], 0, 3⟩]⟩] by decide)
  have hadder : w.client.adder = .idle := (tidy_of_reachable h).adder (by simp [hcontrol])
  obtain ⟨items, hdrawn⟩ : ∃ items, renderTorrents w.torrents 0 = .ok items := by
    rw [hrows]
    exact ⟨_, rfl⟩
  -- The button of the row is pressed, and the question answered.
  obtain ⟨w₀, h₀, hcontrol₀, hdialog₀, hclient₀⟩ : ∃ w₀ : Window 1,
      Reachable (application (fun _ => Download.listEnv) 8 1) w₀ ∧ w₀.control = .confirmDialog ∧
      w₀.dialog = ⟨true, ⟨0, .downloading, onePiece.name, 0, 1⟩⟩ ∧ w₀.client = w.client :=
    ⟨_, (h.step (a := ()) (.press (k := 0) hcontrol hdrawn (le_refl 0) (by rw [hrows]; rfl))).step
      (a := ()) (.noFile rfl), rfl, rfl, rfl⟩
  have hpurge : Step (fun _ => Download.listEnv) 8 w.client (.remover 0) _ := .purge 0 hidle
  obtain ⟨w₁, hcall, hcontrol₁, hremover₁, hadder₁, hstate₁⟩ : ∃ w₁ : Window 1,
      WindowStep (fun _ => Download.listEnv) 8 w₀ w₁ ∧ w₁.control = .removing 0 ∧
      w₁.client.removers 0 = .purged 0 ∧ w₁.client.adder = .idle ∧
      (w₁.client.torrent 0).state = .downloading := by
    rw [← hclient₀] at hpurge hadder hentry
    refine ⟨_, .confirm hcontrol₀ (by rw [hdialog₀]) hpurge ?_, ?_, ?_, hadder, ?_⟩
    · rw [State.removers_setRemover_self, hdialog₀]
    · rw [hdialog₀]
    · exact State.removers_setRemover_self ..
    · exact congrArg Torrent.state (State.torrent_of_entry hentry)
  obtain ⟨w₂, hload, hcontrol₂, hremover₂⟩ : ∃ w₂ : Window 1,
      WindowStep (fun _ => Download.listEnv) 8 w₁ w₂ ∧ w₂.control = .removing 0 ∧
      w₂.client.removers 0 = .loaded 0 .downloading := by
    refine ⟨_, .removeNext hcontrol₁ (.load hremover₁ (State.sharedLock_of_idle hadder₁)) ?_,
      hcontrol₁, ?_⟩
    · rw [State.removers_setRemover_self]
      simp
    · rw [State.removers_setRemover_self]
      exact congrArg (Remover.loaded 0) hstate₁
  have hstop : WindowStep (fun _ => Download.listEnv) 8 w₂ _ :=
    .removed hcontrol₂ (.stop hremover₂ (by decide)) (State.removers_setRemover_self ..)
  have h₃ := ((h₀.step (a := ()) hcall).step (a := ()) hload).step (a := ()) hstop
  refine ⟨_, h₃, rfl, ?_⟩
  intro w' hreaches
  exact ((removed_for_good h₀ hcall (by simp [hcontrol₀]) hcontrol₁).2 _ _ w'
    (.step (a := ()) hload .refl) hcontrol₂ hstop rfl hreaches).1

end Furrent.Gui
