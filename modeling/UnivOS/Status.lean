import UnivOS.Printing
import UnivOS.Kproc

/-! # The status displays

`test.h`: the callbacks that draw a spinner, the time and the list of processes over the
terminal. The list has one row for each process in the order of the table; rows of
processes that have exited go once a second.
-/
namespace UnivOS
open Word

/-- `entry_to_proc`. -/
def entryToProc (entry : Int) : Option (Fin procMax) := index procMax entry

/-- `tty_get_active`. -/
def Ttys.ttyGetActive (s : Ttys) : Int :=
  match s.activeTty with
  | none => -1
  | some i => (s.ttyTable i).id

/-- The frames of the spinner. -/
def spin : List Byte := [0x7C, 0x2F, 0x2D, 0x5C] -- | / - and a backslash

namespace Vga

/-- `count` is what the function keeps between calls. -/
def testSpinner (count : BitVec 32) (v : Vga) : Res (BitVec 32 × Vga) := do
  let v ← v.vgaPutcAt (vgaWidth - 1 : Nat) 0 vgaColorBlack vgaColorGreen
    (spin.getD (count.toNat % spin.length) 0)
  .ok (count + 1, v)

def testTimer (ticks : Int) (v : Vga) : Res Vga :=
  (v.vgaSetXy 73 0).vgaPrintf (padLeft 5 (decimal (ticks.tdiv 100)))

/-! ## The list of processes -/

def procListHeader : List Byte :=
  snprintf vgaWidth (cstring "Entry    PID   State    Time     CPU    Name")

/-- A blank is printed in the width of the screen. -/
def blankLine : List Byte := snprintf vgaWidth (padLeft vgaWidth [space])

/-- The `switch` on the state of a process. -/
def stateDisplay : ProcState → Byte × Int
  | .idle => (0x49, vgaColorWhite) -- I
  | .active => (0x41, vgaColorGreen) -- A
  | .sleeping => (0x53, vgaColorYellow) -- S
  | .waiting => (0x57, vgaColorBrown) -- W
  | .none => (0x3F, vgaColorDarkGrey) -- ?

/-- A name is as long as its characters in front of the NUL. -/
def procLine (entry : Nat) (p : Proc) : List Byte :=
  snprintf vgaWidth (padLeft 5 (decimal entry) ++ List.replicate 2 space ++
    padLeft 5 (decimal p.pid) ++ List.replicate 2 space ++
    padLeft 4 [(stateDisplay p.state).1] ++ List.replicate 2 space ++
    padLeft 8 (decimal p.runTime) ++ List.replicate 2 space ++
    padLeft 6 (decimal p.cpuTime) ++ List.replicate 4 space ++ cString p.name)

/-- `row`, `fg_color` and the screen. -/
abbrev ListState := Int × Int × Vga

/-- The body of the loop over the table. -/
def listEntry (procTable : Fin procMax → Proc) (d : ListState) (i : Nat) : Res ListState :=
  let (row, fg, v) := d
  match entryToProc i with
  | none => .ok d
  | some proc =>
    let p := procTable proc
    if p.state = .none then do
      let v ← v.vgaPutsAt 0 row vgaColorBlack fg blankLine
      .ok (row, fg, v)
    else do
      let fg := (stateDisplay p.state).2
      let v ← v.vgaPutsAt 0 row vgaColorBlack fg (procLine i p)
      .ok (wrap32 (row + 1), fg, v)

def clearRow (v : Vga) (r : Nat) : Res Vga :=
  (List.range vgaWidth).foldlM
    (fun v (c : Nat) => v.vgaPutcAt c (r + 1 : Nat) vgaColorBlack vgaColorLightGrey space) v

def clearRows (v : Vga) : Res Vga := (List.range (vgaHeight - 1)).foldlM clearRow v

def testProcList (active ticks : Int) (procTable : Fin procMax → Proc) (v : Vga) : Res Vga :=
  if active ≠ 0 then .ok v
  else do
    let v ← if ticks.tmod 100 = 0 then clearRows v else .ok v
    let v ← v.vgaPutsAt 0 0 vgaColorBlack vgaColorLightGrey procListHeader
    let (_, _, v) ← (List.range procMax).foldlM (listEntry procTable) (1, vgaColorLightGrey, v)
    .ok v

variable {v w : Vga} {procTable : Fin procMax → Proc} {s : List Byte}

/-! ## The texts are plain -/

theorem snprintf_length (size : Nat) (s : List Byte) : (snprintf size s).length ≤ size - 1 := by
  rw [snprintf, List.length_take]
  exact Nat.min_le_left _ _

theorem stateDisplay_plain (state : ProcState) : Plain [(stateDisplay state).1] := by
  cases state <;> decide

theorem stateDisplay_color (state : ProcState) :
    and32 (stateDisplay state).2 0xf = (stateDisplay state).2 := by
  cases state <;> decide

theorem procLine_plain {p : Proc} (hname : Plain (cString p.name)) (entry : Nat) :
    Plain (procLine entry p) := by
  have number : ∀ (width : Nat) (n : Int), Plain (padLeft width (decimal n)) :=
    fun width n => (decimal_plain n).padLeft width
  have hstate : Plain (padLeft 4 [(stateDisplay p.state).1]) := (stateDisplay_plain _).padLeft 4
  rw [procLine, snprintf]
  refine Plain.take ?_ _
  exact (((((((((number 5 entry).append (plain_blanks 2)).append (number 5 p.pid)).append
    (plain_blanks 2)).append hstate).append (plain_blanks 2)).append (number 8 p.runTime)).append
    (plain_blanks 2)).append (number 6 p.cpuTime)).append (plain_blanks 4) |>.append hname

theorem blankLine_eq : blankLine = List.replicate 79 space := by decide

/-! ## Rows of the screen -/

/-- The text stands at the start of row `y`, and the rest of the row is blank. -/
structure ShowsRow (v : Vga) {y : Nat} (hy : y < vgaHeight) (fg : Int) (text : List Byte) :
    Prop where
  shown : ∀ {x : Nat} (hx : x < vgaWidth) (ht : x < text.length),
    v.buf (cell hy hx) = vgaChar vgaColorBlack fg text[x]
  blank : ∀ {x : Nat} (hx : x < vgaWidth), text.length ≤ x → lowByte (v.buf (cell hy hx)) = space

/-- A text that fits in row `r` changes no other row. -/
theorem written_row (buf : Fin vgaSize → BitVec 16) {r : Nat} (bg fg : Int)
    (hlen : s.length ≤ vgaWidth) {y x : Nat} (hy : y < vgaHeight) (hx : x < vgaWidth) :
    written buf (r * vgaWidth) bg fg s (cell hy hx) =
      if y = r then ((s[x]?).map (vgaChar bg fg)).getD (buf (cell hy hx))
      else buf (cell hy hx) := by
  have hw : vgaWidth = 80 := rfl
  have hval : (cell hy hx : Nat) = x + y * vgaWidth := rfl
  rw [hw] at hlen hx
  by_cases hyr : y = r
  · subst hyr
    rw [if_pos rfl, written, if_pos (by omega), hval, Nat.add_sub_cancel]
  · rw [if_neg hyr]
    refine written_of_lt ?_
    rw [hval, hw]
    omega

/-- The row on which `vga_puts_at` starts at the left. -/
theorem startAt_row {r : Nat} (hr : r < vgaHeight) : startAt 0 r = r * vgaWidth := by
  have h := startAt_of_range (x := 0) (by decide) hr
  rwa [Nat.zero_add] at h

theorem putsAt_row (hs : v.scroll = 0) (hplain : Plain s) (hlen : s.length ≤ vgaWidth) {r : Nat}
    (hr : r < vgaHeight) (fg : Int) : v.vgaPutsAt 0 r vgaColorBlack fg s = .ok { v with
        buf := written v.buf (r * vgaWidth) vgaColorBlack (and32 fg 0xf) s, cursor := 0 } := by
  have hw : vgaWidth = 80 := rfl
  have hsize : vgaSize = 2000 := rfl
  have hr25 : r < 25 := hr
  rw [vgaPutsAt_plain hs hplain, startAt_row hr]
  · rfl
  · rw [startAt_row hr, hsize, hw]
    rw [hw] at hlen
    omega

/-! ## The rows of the list -/

/-- The processes among the first `n` entries of the table. -/
def listed (procTable : Fin procMax → Proc) (n : Nat) : List (Fin procMax) :=
  ((List.finRange procMax).take n).filter fun i => (procTable i).state ≠ .none

theorem listed_succ (procTable : Fin procMax → Proc) {n : Nat} (hn : n < procMax) :
    listed procTable (n + 1) = listed procTable n ++
      if (procTable ⟨n, hn⟩).state = .none then [] else [⟨n, hn⟩] := by
  have hentry : (List.finRange procMax)[n]? = some ⟨n, hn⟩ := by
    rw [List.getElem?_eq_getElem (by rw [List.length_finRange]; exact hn), List.getElem_finRange]
    rfl
  rw [listed, List.take_add_one, hentry, Option.toList_some, List.filter_append, listed]
  congr 1
  split
  · rename_i hnone
    simp [hnone]
  · rename_i hlive
    simp [hlive]

theorem listed_length (procTable : Fin procMax → Proc) (n : Nat) :
    (listed procTable n).length ≤ n := by
  refine Nat.le_trans (List.length_filter_le _ _) ?_
  rw [List.length_take]
  exact Nat.min_le_left _ _

/-- What row `y` of the screen is to show of a list of processes. -/
def rowOf (procTable : Fin procMax → Proc) (l : List (Fin procMax)) (y : Nat) : Int × List Byte :=
  match l[y - 1]? with
  | none => (vgaColorLightGrey, [])
  | some i => ((stateDisplay (procTable i).state).2, procLine i (procTable i))

/-- The rows below the header show the processes of the list, one each, and nothing else. -/
def ShowsList (v : Vga) (procTable : Fin procMax → Proc) (l : List (Fin procMax)) : Prop :=
  ∀ {y : Nat} (hy : y < vgaHeight), 1 ≤ y →
    v.ShowsRow hy (rowOf procTable l y).1 (rowOf procTable l y).2

/-- Only the cells have changed, and the cursor is disabled. -/
def Redrawn (v w : Vga) : Prop := w = { v with buf := w.buf, cursor := 0 }

theorem Redrawn.trans {u : Vga} (h : Redrawn u v) (h' : Redrawn v w) : Redrawn u w := by
  unfold Redrawn at *
  rw [h', h]

theorem Redrawn.scroll (h : Redrawn v w) : w.scroll = v.scroll := by rw [h]

theorem ShowsRow.congr {y : Nat} {hy : y < vgaHeight} {fg : Int} (h : v.ShowsRow hy fg s)
    (hrow : ∀ {x : Nat} (hx : x < vgaWidth), w.buf (cell hy hx) = v.buf (cell hy hx)) :
    w.ShowsRow hy fg s :=
  ⟨fun hx ht => (hrow hx).trans (h.shown hx ht),
    fun hx hle => (congrArg lowByte (hrow hx)).trans (h.blank hx hle)⟩

/-- A text in a blank row. -/
theorem ShowsRow.print {y : Nat} {hy : y < vgaHeight} {fg fg' : Int} (h : v.ShowsRow hy fg [])
    (hrow : ∀ {x : Nat} (hx : x < vgaWidth), w.buf (cell hy hx) =
      ((s[x]?).map (vgaChar vgaColorBlack fg')).getD (v.buf (cell hy hx))) :
    w.ShowsRow hy fg' s := by
  refine ⟨fun hx ht => ?_, fun hx hle => ?_⟩
  · rw [hrow hx, List.getElem?_eq_getElem ht]
    rfl
  · rw [hrow hx, List.getElem?_eq_none hle]
    exact h.blank hx (Nat.zero_le _)

/-- A row of blanks is a blank row. -/
theorem ShowsRow.of_blanks {y : Nat} {hy : y < vgaHeight} {fg fg' : Int} {n : Nat}
    (h : v.ShowsRow hy fg (List.replicate n space)) : v.ShowsRow hy fg' [] := by
  refine ⟨fun hx ht => absurd ht (Nat.not_lt_zero _), fun {x} hx _ => ?_⟩
  by_cases hlt : x < n
  · have hcell := h.shown hx (by rw [List.length_replicate]; exact hlt)
    rw [List.getElem_replicate] at hcell
    rw [hcell]
    exact lowByte_vgaChar _ _ _
  · exact h.blank hx (by rw [List.length_replicate]; omega)

/-- One entry of the table. -/
theorem listEntry_shows (hnames : ∀ i, Plain (cString (procTable i).name)) {n : Nat}
    (hn : n < procMax) (hs : v.scroll = 0) (fg : Int) : ∃ fg' w,
      listEntry procTable (((listed procTable n).length + 1 : Nat), fg, v) n =
        .ok (((listed procTable (n + 1)).length + 1 : Nat), fg', w) ∧ Redrawn v w ∧
      (v.ShowsList procTable (listed procTable n) →
        w.ShowsList procTable (listed procTable (n + 1))) := by
  have hlen := listed_length procTable n
  have hn20 : n < 20 := hn
  have hr : (listed procTable n).length + 1 < vgaHeight := by
    simp only [vgaHeight]
    omega
  have hproc : entryToProc n = some ⟨n, hn⟩ := index_val (⟨n, hn⟩ : Fin procMax)
  have hsucc := listed_succ procTable hn
  unfold listEntry
  rw [hproc]
  dsimp only
  by_cases hnone : (procTable ⟨n, hn⟩).state = .none
  · rw [if_pos hnone] at hsucc ⊢
    rw [List.append_nil] at hsucc
    have hblank : Plain blankLine := blankLine_eq ▸ plain_blanks 79
    rw [putsAt_row hs hblank (by decide) hr fg, Loop.ok_bind, hsucc]
    refine ⟨fg, _, rfl, rfl, fun hshows {y} hy h1 => ?_⟩
    have hold := hshows hy h1
    by_cases hyr : y = (listed procTable n).length + 1
    · rw [rowOf, List.getElem?_eq_none (by omega)] at hold ⊢
      have hprint := hold.print (s := blankLine) (w := { v with
          buf := written v.buf (((listed procTable n).length + 1) * vgaWidth) vgaColorBlack
            (and32 fg 0xf) blankLine, cursor := 0 })
        fun hx => (written_row _ _ _ (by decide) hy hx).trans (if_pos hyr)
      rw [blankLine_eq] at hprint ⊢
      exact hprint.of_blanks
    · exact hold.congr fun hx => (written_row _ _ _ (by decide) hy hx).trans (if_neg hyr)
  · rw [if_neg hnone] at hsucc ⊢
    have hline := procLine_plain (hnames ⟨n, hn⟩) n
    have hfit : (procLine n (procTable ⟨n, hn⟩)).length ≤ vgaWidth :=
      Nat.le_trans (snprintf_length _ _) (by decide)
    have hrow32 : wrap32 (((listed procTable n).length + 1 : Nat) + 1) =
        ((listed procTable (n + 1)).length + 1 : Nat) := by
      rw [hsucc, List.length_append, List.length_singleton, wrap32_of_inInt32 ⟨by omega, by omega⟩]
      rfl
    have hfirst : ∀ y, 1 ≤ y → y = (listed procTable n).length + 1 →
        rowOf procTable (listed procTable (n + 1)) y =
          ((stateDisplay (procTable ⟨n, hn⟩).state).2, procLine n (procTable ⟨n, hn⟩)) := by
      intro y h1 hyr
      rw [rowOf, hsucc, show y - 1 = (listed procTable n).length by omega,
        List.getElem?_concat_length]
    generalize procLine n (procTable ⟨n, hn⟩) = line at hline hfit hfirst ⊢
    rw [putsAt_row hs hline hfit hr, Loop.ok_bind, hrow32, stateDisplay_color]
    refine ⟨_, _, rfl, rfl, fun hshows {y} hy h1 => ?_⟩
    have hold := hshows hy h1
    by_cases hyr : y = (listed procTable n).length + 1
    · rw [rowOf, List.getElem?_eq_none (by omega)] at hold
      rw [hfirst y h1 hyr]
      exact hold.print fun hx => (written_row _ _ _ hfit hy hx).trans (if_pos hyr)
    · have hsame : rowOf procTable (listed procTable (n + 1)) y =
          rowOf procTable (listed procTable n) y := by
        rw [rowOf, rowOf, hsucc]
        rcases Nat.lt_or_gt_of_ne hyr with hlt | hgt
        · rw [List.getElem?_append_left (by omega)]
        · rw [List.getElem?_eq_none (by rw [List.length_append, List.length_singleton]; omega),
            List.getElem?_eq_none (by omega)]
      rw [hsame]
      exact hold.congr fun hx => (written_row _ _ _ hfit hy hx).trans (if_neg hyr)

/-! ## Clearing the rows -/

/-- The cells from the second row on and in front of cell `n` are blank. -/
def BlankTo (v : Vga) (n : Nat) : Prop :=
  ∀ k : Fin vgaSize, vgaWidth ≤ (k : Nat) → (k : Nat) < n → lowByte (v.buf k) = space

/-- Only the cells have changed. -/
def SameButCells (v w : Vga) : Prop := w = { v with buf := w.buf }

theorem SameButCells.trans {u : Vga} (h : SameButCells u v) (h' : SameButCells v w) :
    SameButCells u w := by
  unfold SameButCells at *
  rw [h', h]

theorem SameButCells.scroll (h : SameButCells v w) : w.scroll = v.scroll := by rw [h]

theorem SameButCells.redrawn {u : Vga} (h : SameButCells v w) (h' : Redrawn w u) :
    Redrawn v u := by
  unfold SameButCells at h
  unfold Redrawn at *
  rw [h', h]

theorem clearCell_blank (hs : v.scroll = 0) {r c : Nat} (hr : r + 1 < vgaHeight)
    (hc : c < vgaWidth) (h : v.BlankTo ((r + 1) * vgaWidth + c)) :
    ∃ w, v.vgaPutcAt c (r + 1 : Nat) vgaColorBlack vgaColorLightGrey space = .ok w ∧
      SameButCells v w ∧ w.BlankTo ((r + 1) * vgaWidth + (c + 1)) := by
  have hk := cell_lt hr hc
  refine ⟨_, vgaPutcAt_plain hs (by omega) (by omega) (by omega) (by omega) hk (by simp) (by decide),
    rfl, fun k hk0 hk1 => ?_⟩
  show lowByte (Function.update v.buf _ _ k) = space
  by_cases hkn : k = ⟨c + (r + 1) * vgaWidth, hk⟩
  · rw [hkn, Function.update_self]
    exact lowByte_vgaChar _ _ _
  · have hne : (k : Nat) ≠ c + (r + 1) * vgaWidth := fun he => hkn (Fin.ext he)
    rw [Function.update_of_ne hkn]
    exact h k hk0 (by omega)

theorem clearRow_blank (hs : v.scroll = 0) {r : Nat} (hr : r + 1 < vgaHeight)
    (h : v.BlankTo ((r + 1) * vgaWidth)) : ∃ w, v.clearRow r = .ok w ∧ SameButCells v w ∧
      w.BlankTo ((r + 1 + 1) * vgaWidth) := by
  obtain ⟨w, hw, hsame, hblank⟩ := Loop.range_ok (n := vgaWidth) (s := v)
    (f := fun v (c : Nat) => v.vgaPutcAt c (r + 1 : Nat) vgaColorBlack vgaColorLightGrey space)
    (fun c w => SameButCells v w ∧ w.BlankTo ((r + 1) * vgaWidth + c)) ⟨rfl, h⟩
    fun c hc w ⟨hsame, hblank⟩ => by
      obtain ⟨u, hu, hsame', hblank'⟩ := clearCell_blank (hsame.scroll.trans hs) hr hc hblank
      exact ⟨u, hu, hsame.trans hsame', hblank'⟩
  exact ⟨w, hw, hsame, by rwa [Nat.succ_mul (r + 1)]⟩

theorem clearRows_blank (procTable : Fin procMax → Proc) (hs : v.scroll = 0) :
    ∃ w, v.clearRows = .ok w ∧ SameButCells v w ∧ w.ShowsList procTable [] := by
  obtain ⟨w, hw, hsame, hblank⟩ := Loop.range_ok (f := clearRow) (n := vgaHeight - 1) (s := v)
    (fun r w => SameButCells v w ∧ w.BlankTo ((r + 1) * vgaWidth))
    ⟨rfl, fun k hk0 hk1 => by rw [Nat.zero_add, Nat.one_mul] at hk1; omega⟩
    fun r hr w ⟨hsame, hblank⟩ => by
      obtain ⟨u, hu, hsame', hblank'⟩ :=
        clearRow_blank (hsame.scroll.trans hs) (Nat.add_lt_of_lt_sub hr) hblank
      exact ⟨u, hu, hsame.trans hsame', hblank'⟩
  refine ⟨w, hw, hsame, fun {y} hy h1 => ?_⟩
  refine ⟨fun hx ht => absurd ht (Nat.not_lt_zero _), fun {x} hx _ => hblank _ ?_ (Fin.isLt _)⟩
  exact Nat.le_trans (Nat.le_mul_of_pos_left _ h1) (Nat.le_add_left _ _)

/-! ## The callbacks -/

theorem procListHeader_plain : Plain procListHeader := by decide

/-- The header and the list, on rows that may have been cleared before. -/
theorem listAll_shows (hnames : ∀ i, Plain (cString (procTable i).name)) (hs : v.scroll = 0) :
    ∃ u row fg w, v.vgaPutsAt 0 0 vgaColorBlack vgaColorLightGrey procListHeader = .ok u ∧
      (List.range procMax).foldlM (listEntry procTable) (1, vgaColorLightGrey, u) =
        .ok (row, fg, w) ∧ Redrawn v w ∧
      (v.ShowsList procTable [] → w.ShowsList procTable (listed procTable procMax)) := by
  have hheader := putsAt_row hs procListHeader_plain (by decide) (show 0 < vgaHeight by decide)
    vgaColorLightGrey
  obtain ⟨⟨row, fg, w⟩, hw, hrow, hdrawn, hshows⟩ := Loop.range_ok (f := listEntry procTable)
    (n := procMax) (s := (1, vgaColorLightGrey, { v with
        buf := written v.buf (0 * vgaWidth) vgaColorBlack (and32 vgaColorLightGrey 0xf)
          procListHeader, cursor := 0 }))
    (fun n d => d.1 = ((listed procTable n).length + 1 : Nat) ∧ Redrawn v d.2.2 ∧
      (v.ShowsList procTable [] → d.2.2.ShowsList procTable (listed procTable n)))
    ⟨rfl, rfl, fun h {y} hy h1 => (h hy h1).congr fun hx =>
      (written_row (s := procListHeader) (r := 0) _ _ _ (by decide) hy hx).trans
        (if_neg (by omega))⟩
    fun n hn ⟨row, fg, w⟩ ⟨hrow, hdrawn, hshows⟩ => by
      obtain rfl : row = ((listed procTable n).length + 1 : Nat) := hrow
      obtain ⟨fg', u, hu, hdrawn', hshows'⟩ :=
        listEntry_shows hnames hn (hdrawn.scroll.trans hs) fg
      refine ⟨(_, fg', u), hu, rfl, hdrawn.trans hdrawn', fun h => hshows' (hshows h)⟩
  exact ⟨_, row, fg, w, hheader, hw, hdrawn, hshows⟩

/-- The list is drawn over nothing but the cells; on every hundredth tick it shows the
processes there are, one each row, and no others. -/
theorem testProcList_shows (hnames : ∀ i, Plain (cString (procTable i).name)) (hs : v.scroll = 0)
    (ticks : Int) : ∃ w, testProcList 0 ticks procTable v = .ok w ∧ Redrawn v w ∧
      (ticks.tmod 100 = 0 → w.ShowsList procTable (listed procTable procMax)) := by
  rw [testProcList, if_neg (by simp)]
  by_cases hclear : ticks.tmod 100 = 0
  · obtain ⟨u, hu, hsame, hblank⟩ := clearRows_blank procTable hs
    obtain ⟨_, row, fg, w, hheader, hlist, hdrawn, hshows⟩ :=
      listAll_shows hnames (hsame.scroll.trans hs)
    rw [if_pos hclear, hu, Loop.ok_bind]
    dsimp only
    rw [hheader, Loop.ok_bind, hlist]
    exact ⟨w, rfl, hsame.redrawn hdrawn, fun _ => hshows hblank⟩
  · obtain ⟨_, row, fg, w, hheader, hlist, hdrawn, _⟩ := listAll_shows hnames hs
    rw [if_neg hclear, Loop.ok_bind]
    dsimp only
    rw [hheader, Loop.ok_bind, hlist]
    exact ⟨w, rfl, hdrawn, fun h => absurd h hclear⟩

/-- With another terminal selected there is no list. -/
theorem testProcList_other {active : Int} (h : active ≠ 0) (ticks : Int) :
    testProcList active ticks procTable v = .ok v := if_pos h

/-- The spinner turns in the last cell of the first row. -/
theorem testSpinner_ok (hs : v.scroll = 0) (count : BitVec 32) : ∃ w,
    testSpinner count v = .ok (count + 1, w) ∧ SameButCells v w ∧
      ∀ k : Fin vgaSize, (k : Nat) ≠ 79 → w.buf k = v.buf k := by
  have hplain : spin.getD (count.toNat % spin.length) 0 ∉
      [Tty.tab, Tty.backspace, Tty.carriageReturn, Tty.newline] := by
    have hlt : count.toNat % 4 < 4 := Nat.mod_lt _ (by decide)
    rw [show spin.length = 4 from rfl]
    generalize count.toNat % 4 = i at hlt
    interval_cases i <;> decide
  have hcell : ((vgaWidth - 1 : Nat) : Int) + 0 * vgaWidth = 79 := rfl
  rw [testSpinner, vgaPutcAt_plain hs (by decide) (by decide) (by decide) (by decide)
    (show 79 < vgaSize by decide) hcell hplain]
  exact ⟨_, rfl, rfl, fun k hk => Function.update_of_ne (fun he => hk (congrArg Fin.val he)) _ _⟩

/-- Where the time is printed. -/
def clockEnd : Nat := 82

/-- The time is printed behind cell 73 of the first row, at most one cell into the next. -/
theorem testTimer_ok (hs : v.scroll = 0) {ticks : Int} (hticks : InInt32 ticks) : ∃ w,
    testTimer ticks v = .ok w ∧ w = { v with buf := w.buf, posX := w.posX, posY := w.posY } ∧
      w.OnScreen ∧ ∀ k : Fin vgaSize, (k : Nat) < 73 ∨ clockEnd ≤ k → w.buf k = v.buf k := by
  obtain ⟨hlo, hhi⟩ := hticks
  have hdiv : (ticks.tdiv 100).natAbs < 10 ^ 8 := by
    have hnat : (ticks.tdiv 100).natAbs = ticks.natAbs / 100 := Int.natAbs_tdiv ticks 100
    omega
  have hlen : (padLeft 5 (decimal (ticks.tdiv 100))).length ≤ 9 := by
    have := decimal_length (by decide) hdiv
    rw [padLeft, List.length_append, List.length_replicate]
    omega
  have hplain := (decimal_plain (ticks.tdiv 100)).padLeft 5
  rw [testTimer, vgaPrintf]
  generalize padLeft 5 (decimal (ticks.tdiv 100)) = text at hlen hplain
  have hsize : vgaSize = 2000 := rfl
  have hon : (v.vgaSetXy 73 0).OnScreen := vgaSetXy_onScreen v 73 0
  have hat : At (v.vgaSetXy 73 0) 73 := hon.at.1
  have htake : snprintf (vgaWidth * vgaHeight) text = text := by
    refine List.take_of_length_le ?_
    show text.length ≤ 1999
    omega
  obtain ⟨x, y, hputs, hat'⟩ := vgaPuts_plain hat hs hplain (by omega)
  have hend : clockEnd = 82 := rfl
  rw [htake, hputs]
  exact ⟨_, rfl, rfl, hat'.onScreen_iff.mpr (by omega), fun k hk => written_of_lt (by omega)⟩

end Vga
end UnivOS
