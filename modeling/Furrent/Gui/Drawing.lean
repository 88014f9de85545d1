import Furrent.Gui.Rows

/-! # Drawing the rows

    What a row shows of the progress is `pieces_processed * 100 /
    pieces_count`, in integers. For the rows of a running program it is
    between 0 and 100, and it is 100 only when all pieces are there. The
    division is made in every state, also where no bar is drawn, and it
    stops the program if the torrent has no pieces. -/

namespace Furrent.Gui

open Cpp Transition Client

variable {n : Nat} {W : Type} {env : Peer → Download.Env W} {fuel : Nat} {w : Window n}
  {row : TorrentGuiData}

/-- A row that can be drawn if it has pieces. -/
structure TorrentGuiData.InRange (row : TorrentGuiData) : Prop where
  nonneg : 0 ≤ row.piecesProcessed
  le : row.piecesProcessed ≤ row.piecesCount
  fits : row.piecesCount * 100 < 2 ^ 63

namespace TorrentGuiData.InRange

theorem fits_scaled (h : row.InRange) : FitsInt64 (row.piecesProcessed * 100) := by
  have := h.nonneg
  have := h.le
  have := h.fits
  constructor
  · omega
  · omega

/-- The quotient is a percentage. -/
theorem percentage (h : row.InRange) (hne : row.piecesCount ≠ 0) :
    0 ≤ (row.piecesProcessed * 100).tdiv row.piecesCount ∧
    (row.piecesProcessed * 100).tdiv row.piecesCount ≤ 100 ∧
    ((row.piecesProcessed * 100).tdiv row.piecesCount = 100 ↔
      row.piecesProcessed = row.piecesCount) := by
  have h0 := h.nonneg
  have hle := h.le
  have hpos : 0 < row.piecesCount := by omega
  rw [Int.tdiv_eq_ediv_of_nonneg (by omega)]
  refine ⟨Int.ediv_nonneg (by omega) (by omega), ?_, ?_⟩
  · apply Int.ediv_le_of_le_mul hpos
    rw [Int.mul_comm 100]
    exact Int.mul_le_mul_of_nonneg_right hle (by decide)
  · constructor
    · intro heq
      have hmul := Int.mul_ediv_self_le (x := row.piecesProcessed * 100) (k := row.piecesCount)
        (by omega)
      rw [heq] at hmul
      omega
    · intro heq
      rw [heq, Int.mul_comm]
      exact Int.mul_ediv_cancel _ hne

/-- The item of a row with pieces. -/
theorem renderTorrentItem_eq (h : row.InRange) (hne : row.piecesCount ≠ 0) :
    renderTorrentItem row = .ok {
      name := itemName row.filename
      bar := (barText row.state).map fun text =>
        ⟨Numeral.signedDecimal ((row.piecesProcessed * 100).tdiv row.piecesCount) ++ [37, 32],
          text, (row.piecesProcessed * 100).tdiv row.piecesCount⟩ } := by
  obtain ⟨h0, hle, _⟩ := h.percentage hne
  have hscaled : (int64 (row.piecesProcessed * 100) : Outcome Empty Int)
      = .ok (row.piecesProcessed * 100) := int64_eq_ok.mpr ⟨rfl, h.fits_scaled⟩
  have hquotient : (divInt64 (row.piecesProcessed * 100) row.piecesCount : Outcome Empty Int)
      = .ok ((row.piecesProcessed * 100).tdiv row.piecesCount) :=
    divInt64_eq_ok.mpr ⟨hne, rfl, by omega, by omega⟩
  rw [renderTorrentItem, hscaled, ok_bind, hquotient, ok_bind]

end TorrentGuiData.InRange

theorem renderTorrentItem_without_pieces (hfits : FitsInt64 (row.piecesProcessed * 100))
    (hnone : row.piecesCount = 0) : renderTorrentItem row = .error .trap := by
  have hscaled : (int64 (row.piecesProcessed * 100) : Outcome Empty Int)
      = .ok (row.piecesProcessed * 100) := int64_eq_ok.mpr ⟨rfl, hfits⟩
  rw [renderTorrentItem, hscaled, ok_bind, divInt64, if_pos hnone, error_bind]

/-- The rows are drawn one after the other, and the first without pieces is
    the last. -/
theorem renderTorrents_eq (rows : List TorrentGuiData) (h : ∀ row ∈ rows, row.InRange) :
    (∃ items, rows.mapM renderTorrentItem = .ok items) ∧ (∀ row ∈ rows, row.piecesCount ≠ 0) ∨
    rows.mapM renderTorrentItem = .error .trap ∧ ∃ row ∈ rows, row.piecesCount = 0 := by
  induction rows with
  | nil => exact .inl ⟨⟨[], rfl⟩, by simp⟩
  | cons row rows ih =>
    rw [List.mapM_cons]
    by_cases hne : row.piecesCount = 0
    · right
      rw [renderTorrentItem_without_pieces (h row List.mem_cons_self).fits_scaled hne]
      exact ⟨rfl, row, List.mem_cons_self, hne⟩
    · rw [(h row List.mem_cons_self).renderTorrentItem_eq hne, ok_bind]
      rcases ih fun row' hrow' => h row' (List.mem_cons_of_mem _ hrow') with
        ⟨⟨items, hitems⟩, hall⟩ | ⟨htrap, row', hrow', hnone⟩
      · left
        rw [hitems]
        exact ⟨⟨_, rfl⟩, List.forall_mem_cons.mpr ⟨hne, hall⟩⟩
      · right
        rw [htrap]
        exact ⟨rfl, row', List.mem_cons_of_mem _ hrow', hnone⟩

/-! ### In the running program -/

theorem inRange_of_reachable (h : Reachable (application env fuel n) w)
    (hfits : ∀ row ∈ w.torrents, row.piecesCount * 100 < 2 ^ 63) :
    ∀ row ∈ w.torrents, row.InRange := by
  intro row hrow
  have htrue := (tidy_of_reachable h).rows row hrow
  have hle := counter_le_of_reachable (client_of_application h).of_restrict htrue.generated
  refine ⟨htrue.nonneg, ?_, hfits row hrow⟩
  rw [htrue.piecesCount]
  exact le_trans htrue.piecesProcessed hle

/-- The window draws its rows unless a torrent without pieces is in sight,
    and then the program stops. A bar shows a percentage: 100 if all pieces
    are there, as they are in every row that shows `Completed`, and less if
    not. -/
theorem rows_drawn_iff (h : Reachable (application env fuel n) w)
    (hfits : ∀ row ∈ w.torrents, row.piecesCount * 100 < 2 ^ 63) (above : Nat) :
    ((∃ items, renderTorrents w.torrents above = .ok items) ↔
      ∀ row ∈ w.torrents.drop above, row.piecesCount ≠ 0) ∧
    (renderTorrents w.torrents above = .error .trap ↔
      ∃ row ∈ w.torrents.drop above, row.piecesCount = 0) ∧
    ∀ row ∈ w.torrents, ∀ item bar, renderTorrentItem row = .ok item → item.bar = some bar →
      0 ≤ bar.value ∧ bar.value ≤ 100 ∧
      (bar.value = 100 ↔ row.piecesProcessed = row.piecesCount) ∧
      (row.state = .completed → bar.value = 100) := by
  have hrange := inRange_of_reachable h hfits
  have hcases := renderTorrents_eq (w.torrents.drop above)
    fun row hrow => hrange row (List.mem_of_mem_drop hrow)
  refine ⟨?_, ?_, ?_⟩
  · rcases hcases with ⟨hok, hall⟩ | ⟨htrap, row, hrow, hnone⟩
    · exact iff_of_true hok hall
    · refine iff_of_false ?_ fun hall => hall row hrow hnone
      rintro ⟨items, hitems⟩
      exact absurd (htrap.symm.trans hitems) (by simp)
  · rcases hcases with ⟨⟨items, hitems⟩, hall⟩ | ⟨htrap, hnone⟩
    · refine iff_of_false (fun htrap => absurd (hitems.symm.trans htrap) (by simp)) ?_
      rintro ⟨row, hrow, hnone⟩
      exact hall row hrow hnone
    · exact iff_of_true htrap hnone
  · intro row hrow item bar hitem hbar
    have hin := hrange row hrow
    have hne : row.piecesCount ≠ 0 := by
      intro hnone
      rw [renderTorrentItem_without_pieces hin.fits_scaled hnone] at hitem
      cases hitem
    rw [hin.renderTorrentItem_eq hne] at hitem
    injection hitem with hitem
    subst hitem
    obtain ⟨text, _, rfl⟩ := Option.map_eq_some_iff.mp hbar
    obtain ⟨h0, hle, hfull⟩ := hin.percentage hne
    exact ⟨h0, hle, hfull, fun hstate =>
      hfull.mpr (((tidy_of_reachable h).rows row hrow).completed hstate)⟩

/-- A file of two bytes and a piece length of -1. The count is rounded up to
    zero, and no hashes are what it takes. -/
def withoutPieces : TorrentFile :=
  { onePiece with
    pieceHashes := []
    pieceLength := -1
    length := 2
    piecesCount := 0
    files := [⟨[[97]], 2⟩] }

/-- It is added, and the program stops when its row is drawn. -/
theorem rows_drawn_without_pieces : ∃ w : Window 1,
    Reachable (application (fun _ => Download.listEnv) 8 1) w ∧ w.control = .drawing ∧
    renderTorrents w.torrents 0 = .error .trap := by
  obtain ⟨w, h, hcontrol, hrows, _⟩ := row_shown 1 (fun _ => Download.listEnv) 8 withoutPieces
    (show [(⟨1, 2⟩ : Peer)] ≠ [] by decide)
    (show Torrent.pieces withoutPieces (fun _ => some 0) = .ok [] by decide)
  refine ⟨w, h, hcontrol, ((rows_drawn_iff h ?_ 0).2.1).mpr ?_⟩
  · rw [hrows]
    decide
  · rw [hrows]
    exact ⟨_, List.mem_cons_self, rfl⟩

end Furrent.Gui
