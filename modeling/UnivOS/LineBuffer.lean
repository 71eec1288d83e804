import UnivOS.Shell
import Mathlib.Data.List.Infix

/-! # The bounds of the shell's line buffer

Every character of a prompt goes behind the ones before it, and only a line end
starts over. The array has no room to spare: a prompt with as many characters as the
array has bytes leaves no 0 behind them.
-/
namespace UnivOS
namespace Shell

/-- `char input[128] = {0}` after the stores. -/
def inputArray (input : List Byte) : List Byte :=
  input ++ List.replicate (inputSize - input.length) 0

def Terminated (input : List Byte) : Prop := 0 ∈ inputArray input

/-- No store is outside the array, and the strings handed on are terminated. -/
def Safe (input : List Byte) (reads : List (Option (List Byte))) : Prop :=
  (shell input reads).2 ≠ .overrun ∧ ∀ l ∈ (shell input reads).1, Terminated l

instance (input : List Byte) : Decidable (Terminated input) :=
  inferInstanceAs (Decidable (0 ∈ _))

instance (input : List Byte) (reads : List (Option (List Byte))) : Decidable (Safe input reads) :=
  inferInstanceAs (Decidable (_ ∧ _))

/-- What reached the shell, chunk by chunk. -/
def chunks (reads : List (Option (List Byte))) : List (List Byte) := reads.filterMap id

/-- Behind `n` characters there is room for the chunks up to the first line end, and
for the 0 behind the characters of the chunk that has it. -/
structure RoomFrom (n : Nat) (cs : List (List Byte)) : Prop where
  openChunks : ∀ mid, mid <+: cs → (∀ c ∈ mid, Open c) → n + mid.flatten.length ≤ inputSize
  endChunk : ∀ mid c, mid ++ [c] <+: cs → (∀ c ∈ mid, Open c) → ¬ Open c →
    n + mid.flatten.length + (chars c).length < inputSize

/-- There is room wherever a prompt starts. -/
def Room (cs : List (List Byte)) : Prop := ∀ tail, tail <:+ cs → RoomFrom 0 tail

variable {input l c : List Byte} {cs : List (List Byte)} {reads : List (Option (List Byte))}
  {m n : Nat}

/-! ## The room for chunks -/

theorem RoomFrom.mono (h : RoomFrom n cs) (hle : m ≤ n) : RoomFrom m cs := by
  refine ⟨fun mid hpre hopen => ?_, fun mid c hpre hopen hc => ?_⟩
  · have := h.openChunks mid hpre hopen
    omega
  · have := h.endChunk mid c hpre hopen hc
    omega

theorem RoomFrom.le (h : RoomFrom n cs) : n ≤ inputSize :=
  h.openChunks [] List.nil_prefix fun _ hc => absurd hc List.not_mem_nil

theorem roomFrom_nil : RoomFrom n [] ↔ n ≤ inputSize := by
  refine ⟨RoomFrom.le, fun hle => ⟨fun mid hpre _ => ?_, fun mid c hpre _ _ => ?_⟩⟩
  · rw [List.prefix_nil.mp hpre]
    exact hle
  · exact absurd (List.prefix_nil.mp hpre) (by simp)

/-- A chunk within a line takes its length of the room. -/
theorem roomFrom_open (hc : Open c) : RoomFrom n (c :: cs) ↔ RoomFrom (n + c.length) cs := by
  constructor
  · intro h
    refine ⟨fun mid hpre hopen => ?_, fun mid d hpre hopen hd => ?_⟩
    · have := h.openChunks (c :: mid) (by simpa using hpre) (by simpa using ⟨hc, hopen⟩)
      rw [List.flatten_cons, List.length_append] at this
      omega
    · have := h.endChunk (c :: mid) d (by simpa using hpre) (by simpa using ⟨hc, hopen⟩) hd
      rw [List.flatten_cons, List.length_append] at this
      omega
  · intro h
    refine ⟨fun mid hpre hopen => ?_, fun mid d hpre hopen hd => ?_⟩
    · cases mid with
      | nil =>
        have := h.le
        simp only [List.flatten_nil, List.length_nil]
        omega
      | cons c' mid =>
        obtain ⟨rfl, hmid⟩ := List.cons_prefix_cons.mp hpre
        have := h.openChunks mid hmid fun e he => hopen e (List.mem_cons_of_mem _ he)
        rw [List.flatten_cons, List.length_append]
        omega
    · cases mid with
      | nil =>
        obtain ⟨rfl, _⟩ := List.cons_prefix_cons.mp hpre
        exact absurd hc hd
      | cons c' mid =>
        obtain ⟨rfl, hmid⟩ := List.cons_prefix_cons.mp hpre
        have := h.endChunk mid d hmid (fun e he => hopen e (List.mem_cons_of_mem _ he)) hd
        rw [List.flatten_cons, List.length_append]
        omega

/-- What follows a chunk with a line end does not matter. -/
theorem roomFrom_end (hc : ¬ Open c) :
    RoomFrom n (c :: cs) ↔ n + (chars c).length < inputSize := by
  constructor
  · intro h
    exact h.endChunk [] c (by simp) (fun _ hd => absurd hd List.not_mem_nil) hc
  · intro hlt
    refine ⟨fun mid hpre hopen => ?_, fun mid d hpre hopen hd => ?_⟩
    · cases mid with
      | nil =>
        simp only [List.flatten_nil, List.length_nil]
        omega
      | cons c' mid =>
        obtain ⟨rfl, _⟩ := List.cons_prefix_cons.mp hpre
        exact absurd (hopen _ List.mem_cons_self) hc
    · cases mid with
      | nil =>
        obtain ⟨rfl, _⟩ := List.cons_prefix_cons.mp hpre
        exact hlt
      | cons c' mid =>
        obtain ⟨rfl, _⟩ := List.cons_prefix_cons.mp hpre
        exact absurd (hopen _ List.mem_cons_self) hc

theorem room_nil : Room [] := fun tail hs => by
  rw [List.suffix_nil.mp hs]
  exact roomFrom_nil.mpr (Nat.zero_le _)

theorem room_cons : Room (c :: cs) ↔ RoomFrom 0 (c :: cs) ∧ Room cs := by
  constructor
  · intro h
    exact ⟨h _ List.suffix_rfl, fun tail hs => h tail (List.suffix_cons_iff.mpr (.inr hs))⟩
  · intro ⟨hfirst, h⟩ tail hs
    rcases List.suffix_cons_iff.mp hs with rfl | hs
    · exact hfirst
    · exact h tail hs

theorem roomFrom_room_open (hc : Open c) :
    RoomFrom n (c :: cs) ∧ Room (c :: cs) ↔ RoomFrom (n + c.length) cs ∧ Room cs := by
  rw [room_cons, roomFrom_open hc, roomFrom_open hc]
  constructor
  · intro ⟨hfrom, _, hroom⟩
    exact ⟨hfrom, hroom⟩
  · intro ⟨hfrom, hroom⟩
    exact ⟨hfrom, hfrom.mono (by omega), hroom⟩

theorem roomFrom_room_end (hc : ¬ Open c) : RoomFrom n (c :: cs) ∧ Room (c :: cs) ↔
    n + (chars c).length < inputSize ∧ RoomFrom 0 cs ∧ Room cs := by
  rw [room_cons, roomFrom_end hc, roomFrom_end hc]
  constructor
  · intro ⟨hlt, _, hroom⟩
    exact ⟨hlt, hroom cs List.suffix_rfl, hroom⟩
  · intro ⟨hlt, _, hroom⟩
    exact ⟨hlt, by omega, hroom⟩

/-! ## The stores of a run -/

theorem terminated_iff (h : Open input) (hlen : input.length ≤ inputSize) :
    Terminated input ↔ input.length < inputSize := by
  unfold Terminated inputArray
  rw [List.mem_append, List.mem_replicate]
  constructor
  · rintro (hmem | ⟨hpos, _⟩)
    · exact absurd (h 0 hmem) (by decide)
    · omega
  · intro hlt
    exact .inr ⟨by omega, rfl⟩

theorem open_chars (s : List Byte) : Open (chars s) := fun c hc => by
  simpa using (List.mem_filter.mp hc).2

theorem safe_nil (input : List Byte) : Safe input [] :=
  ⟨by simp [shell], fun _ hl => absurd hl List.not_mem_nil⟩

theorem safe_none : Safe input (none :: reads) ↔ Safe input reads := Iff.rfl

/-- From `input`, the stores are safe exactly if there is room behind it and for every
prompt after it. -/
theorem safe_iff_room : ∀ (reads : List (Option (List Byte))) {input : List Byte},
    Open input → input.length ≤ inputSize → Stays input reads →
    (Safe input reads ↔ RoomFrom input.length (chunks reads) ∧ Room (chunks reads))
  | [], input, _, hlen, _ =>
    iff_of_true (safe_nil input) ⟨roomFrom_nil.mpr hlen, room_nil⟩
  | none :: reads, _, hin, hlen, hthere =>
    safe_none.trans (safe_iff_room reads hin hlen hthere)
  | some chunk :: reads, input, hin, hlen, hthere => by
    have hchunks : chunks (some chunk :: reads) = chunk :: chunks reads := rfl
    rw [hchunks]
    by_cases hc : Open chunk
    · rw [roomFrom_room_open hc, ← List.length_append]
      by_cases hlen' : (input ++ chunk).length ≤ inputSize
      · have hstep := shell_open hc hlen hlen' reads
        rw [Stays, hstep] at hthere
        rw [Safe, hstep]
        exact safe_iff_room reads (hin.append hc) hlen' hthere
      · refine iff_of_false (fun hsafe => ?_) fun hroom => hlen' hroom.1.le
        exact hsafe.1 (shell_overrun_open hc hlen hlen')
    · rw [roomFrom_room_end hc]
      obtain hopen | ⟨pre, e, post, rfl, hpre, he⟩ := open_or_end chunk
      · exact absurd hopen hc
      have hchars : chars (pre ++ e :: post) = pre ++ chars post := by
        rw [chars, List.filter_append, List.filter_cons_of_neg (by simp [he])]
        exact congrArg (· ++ chars post) (chars_open hpre)
      rw [hchars, ← List.length_append]
      by_cases hlen' : (input ++ (pre ++ chars post)).length ≤ inputSize
      · obtain ⟨hhead, hover, hthere'⟩ := shell_end hpre he hlen hlen' hthere
        have hline : Open (input ++ (pre ++ chars post)) :=
          hin.append (hpre.append (open_chars post))
        rw [Safe, hhead, List.forall_mem_cons, terminated_iff hline hlen', ← and_assoc,
          and_comm (a := (_ ≠ _)), and_assoc, Ne, hover]
        exact and_congr_right fun _ => safe_iff_room reads open_nil (Nat.zero_le _) hthere'
      · refine iff_of_false (fun hsafe => ?_) fun hroom => hlen' (Nat.le_of_lt hroom.1)
        exact hsafe.1 (shell_overrun_end hpre he hlen hlen')

/-- **The line buffer holds exactly if there is room for every prompt**: no stretch of
chunks without a line end has more bytes than the array, and none has as many characters
together with the chunk with a line end behind it. -/
theorem lineBuffer_safe_iff (reads : List (Option (List Byte))) (hthere : Stays [] reads) :
    Safe [] reads ↔ Room (chunks reads) := by
  rw [safe_iff_room reads open_nil (Nat.zero_le _) hthere]
  exact and_iff_right_of_imp fun hroom => hroom _ List.suffix_rfl

/-- A failed read, and a line in two chunks. -/
theorem lineBuffer_safe_two :
    Safe [] [none, some [97], some [98, 10]] ∧ Room [[97], [98, 10]] := by
  have hsafe : Safe [] [none, some [97], some [98, 10]] := by decide +kernel
  have hend : (shell [] [none, some [97], some [98, 10]]).2 = .waiting [] := by decide +kernel
  refine ⟨hsafe, (lineBuffer_safe_iff _ fun unread h => ?_).mp hsafe⟩
  rw [hend] at h
  cases h

/-- With 128 characters the array is full: the next one is stored past its end, and a
line end hands it on without a 0. -/
theorem lineBuffer_overrun :
    (shell [] [some (List.replicate 128 97), some [98]]).2 = .overrun ∧
      ¬ Safe [] [some (List.replicate 128 97), some [98]] ∧
      (∃ l, (shell [] [some (List.replicate 128 97), some [10]]).1 = [l] ∧ ¬ Terminated l) ∧
      ¬ Safe [] [some (List.replicate 128 97), some [10]] := by
  refine ⟨by decide +kernel, by decide +kernel, ⟨List.replicate 128 97, ?_⟩, by decide +kernel⟩
  decide +kernel

end Shell
end UnivOS
