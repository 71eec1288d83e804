import UnivOS.RingBuf
import Mathlib.Data.List.Basic

/-! # The shell's read loop

`prog_shell`, from its line buffer's point of view. The echo, the prompts and
the locks of the loop are system calls that leave its variables alone, so an
iteration is what `io_read` returned: `none` for -1, else the chunk of bytes.
-/
namespace UnivOS
namespace Shell

def inputSize : Nat := 128

/-- `buf[i] == '\n' || buf[i] == 0`. -/
def isLineEnd (c : Byte) : Bool := c == 10 || c == 0

inductive Command
  | help
  | sleep
  | time
  | exit
  | lock
  | other
deriving DecidableEq, Repr

/-- `strncmp(input, cmd, strlen(cmd)) == 0`. -/
def strncmpEq (input : List Byte) (cmd : String) : Bool :=
  (cmd.toList.map fun c => BitVec.ofNat 8 c.toNat).isPrefixOf input

/-- The command a line stands for; an empty line is none. -/
def command (input : List Byte) : Option Command :=
  if input = [] then none
  else if strncmpEq input "help" then some .help
  else if strncmpEq input "sleep" then some .sleep
  else if strncmpEq input "time" then some .time
  else if strncmpEq input "exit" then some .exit
  else if strncmpEq input "lock" then some .lock
  else some .other

/-- The `for` loop over a chunk. `input` is the `input_len` bytes stored so far;
the next one goes to `input[input_len]`, and `none` is a store past the array. -/
def readChunk : Bool → List Byte → List Byte → Option (Bool × List Byte)
  | reading, input, [] => some (reading, input)
  | reading, input, c :: chunk =>
    if isLineEnd c then readChunk false input chunk
    else if input.length < inputSize then readChunk reading (input ++ [c]) chunk
    else none

/-- Where the results of `io_read` leave the shell: in its read loop, gone with
some of them unread, or past the end of its line buffer. -/
inductive Outcome
  | waiting (input : List Byte)
  | exited (unread : List (Option (List Byte)))
  | overrun
deriving DecidableEq

/-- The strings handed to command interpretation, and the outcome. -/
def shell : List Byte → List (Option (List Byte)) → List (List Byte) × Outcome
  | input, [] => ([], .waiting input)
  | input, none :: reads => shell input reads
  | input, some chunk :: reads =>
    match readChunk true input chunk with
    | none => ([], .overrun)
    | some (true, input) => shell input reads
    | some (false, input) =>
      if command input = some .exit then ([input], .exited reads)
      else (input :: (shell [] reads).1, (shell [] reads).2)

/-! ## Lines of a stream -/

/-- The bytes the reads delivered. -/
def stream (reads : List (Option (List Byte))) : List Byte := (reads.filterMap id).flatten

/-- The lines of a stream, each without its end. -/
def lines (s : List Byte) : List (List Byte) := (s.splitOnP isLineEnd).dropLast

/-- What follows the last line end. -/
def rest (s : List Byte) : List Byte := (s.splitOnP isLineEnd).getLastD []

/-- Bytes within a line. -/
def Open (s : List Byte) : Prop := ∀ c ∈ s, isLineEnd c = false

/-- No byte of the chunk follows a line end. -/
def OneLine (chunk : List Byte) : Prop := Open chunk.dropLast

instance (s : List Byte) : Decidable (Open s) := inferInstanceAs (Decidable (∀ c ∈ s, _))

instance (s : List Byte) : Decidable (OneLine s) := inferInstanceAs (Decidable (Open _))

theorem open_nil : Open [] := fun _ hc => absurd hc List.not_mem_nil

variable {s pre post input chunk : List Byte} {e : Byte} {reads : List (Option (List Byte))}

theorem Open.append (h : Open s) (h' : Open post) : Open (s ++ post) := by
  intro c hc
  rcases List.mem_append.mp hc with hc | hc
  · exact h c hc
  · exact h' c hc

theorem lines_open (h : Open s) : lines s = [] := by
  rw [lines, List.splitOnP_eq_singleton h]; rfl

theorem rest_open (h : Open s) : rest s = s := by
  rw [rest, List.splitOnP_eq_singleton h]; rfl

theorem lines_end (h : Open pre) (he : isLineEnd e = true) :
    lines (pre ++ e :: post) = pre :: lines post := by
  rw [lines, List.splitOnP_append_cons_of_forall_mem h e he,
    List.dropLast_cons_of_ne_nil (List.splitOnP_ne_nil _ _)]
  rfl

theorem rest_end (h : Open pre) (he : isLineEnd e = true) : rest (pre ++ e :: post) = rest post := by
  rw [rest, List.splitOnP_append_cons_of_forall_mem h e he, rest]
  cases hs : post.splitOnP isLineEnd with
  | nil => exact absurd hs (List.splitOnP_ne_nil _ _)
  | cons l ls => rfl

/-- A stream is within one line, or has a first line end. -/
theorem open_or_end : ∀ s : List Byte, Open s ∨
    ∃ pre e post, s = pre ++ e :: post ∧ Open pre ∧ isLineEnd e = true
  | [] => .inl open_nil
  | c :: s => by
    cases hc : isLineEnd c with
    | true => exact .inr ⟨[], c, s, rfl, open_nil, hc⟩
    | false =>
      have hopen : ∀ {u}, Open u → Open (c :: u) := fun h x hx => by
        rcases List.mem_cons.mp hx with rfl | hx
        · exact hc
        · exact h x hx
      rcases open_or_end s with h | ⟨pre, e, post, rfl, hpre, he⟩
      · exact .inl (hopen h)
      · exact .inr ⟨c :: pre, e, post, rfl, hopen hpre, he⟩

theorem splitOnP_length : ∀ s : List Byte,
    (s.splitOnP isLineEnd).length = s.countP isLineEnd + 1
  | [] => rfl
  | c :: s => by
    rw [List.splitOnP_cons_eq_if_modifyHead, List.countP_cons]
    cases isLineEnd c <;> simp [splitOnP_length s]

/-- A stream has as many lines as line ends. -/
theorem lines_length (s : List Byte) : (lines s).length = s.countP isLineEnd := by
  rw [lines, List.length_dropLast, splitOnP_length, Nat.add_sub_cancel]

/-- The bytes at the front of a stream are no more than those of its first line,
or of its rest when it has no line. -/
theorem length_le_first (h : Open pre) (hl : ∀ l ∈ lines (pre ++ s), l.length < inputSize)
    (hr : (rest (pre ++ s)).length ≤ inputSize) : pre.length ≤ inputSize := by
  rcases open_or_end s with hs | ⟨u, e, post, rfl, hu, he⟩
  · rw [rest_open (h.append hs), List.length_append] at hr
    omega
  · rw [← List.append_assoc, lines_end (h.append hu) he] at hl
    have := hl _ List.mem_cons_self
    rw [List.length_append] at this
    omega

theorem stream_some : stream (some chunk :: reads) = chunk ++ stream reads := rfl

/-! ## A chunk -/

/-- The characters of a chunk. -/
def chars (chunk : List Byte) : List Byte := chunk.filter fun c => !isLineEnd c

theorem chars_open (h : Open s) : chars s = s := by
  refine List.filter_eq_self.mpr fun c hc => ?_
  rw [h c hc]; rfl

theorem readChunk_spec : ∀ (chunk input : List Byte) (reading : Bool), input.length ≤ inputSize →
    readChunk reading input chunk =
      if (input ++ chars chunk).length ≤ inputSize then
        some (reading && chunk.all fun c => !isLineEnd c, input ++ chars chunk)
      else none
  | [], input, reading, h => by simp [readChunk, chars, h]
  | c :: chunk, input, reading, h => by
    cases hc : isLineEnd c with
    | true =>
      have hchars : chars (c :: chunk) = chars chunk := by simp [chars, hc]
      rw [readChunk, if_pos hc, readChunk_spec chunk input false h, hchars]
      simp [hc]
    | false =>
      have hchars : chars (c :: chunk) = c :: chars chunk := by simp [chars, hc]
      rw [readChunk, if_neg (by simp [hc]), hchars]
      by_cases hlt : input.length < inputSize
      · have hlen : (input ++ [c]).length ≤ inputSize := by simp; omega
        rw [if_pos hlt, readChunk_spec chunk (input ++ [c]) reading hlen]
        simp [hc]
      · rw [if_neg hlt, if_neg (by simp; omega)]

theorem readChunk_open (h : Open chunk) (hin : input.length ≤ inputSize) :
    readChunk true input chunk =
      if (input ++ chunk).length ≤ inputSize then some (true, input ++ chunk) else none := by
  have hall : (chunk.all fun c => !isLineEnd c) = true :=
    List.all_eq_true.mpr fun c hc => by rw [h c hc]; rfl
  rw [readChunk_spec chunk input true hin, chars_open h, hall]
  rfl

theorem readChunk_end (h : Open pre) (he : isLineEnd e = true) (hin : input.length ≤ inputSize) :
    readChunk true input (pre ++ e :: post) =
      if (input ++ (pre ++ chars post)).length ≤ inputSize then
        some (false, input ++ (pre ++ chars post)) else none := by
  have hchars : chars (pre ++ e :: post) = pre ++ chars post := by
    rw [chars, List.filter_append, List.filter_cons_of_neg (by simp [he])]
    exact congrArg (· ++ chars post) (chars_open h)
  have hall : ((pre ++ e :: post).all fun c => !isLineEnd c) = false := by simp [he]
  rw [readChunk_spec _ input true hin, hchars, hall]
  rfl

theorem oneLine_open (h : Open s) : OneLine s := fun c hc =>
  h c ((List.dropLast_sublist s).subset hc)

theorem oneLine_end (h : Open pre) (he : isLineEnd e = true) :
    OneLine (pre ++ e :: post) ↔ post = [] := by
  constructor
  · intro hone
    by_contra hpost
    have hmem : e ∈ (pre ++ e :: post).dropLast := by
      rw [List.dropLast_append_of_ne_nil (List.cons_ne_nil e post),
        List.dropLast_cons_of_ne_nil hpost]
      simp
    rw [hone e hmem] at he
    cases he
  · rintro rfl
    intro c hc
    rw [List.dropLast_concat] at hc
    exact h c hc

/-! ## A run of the loop -/

/-- The shell is there for every read: it does not exit with some of them left. -/
def Stays (input : List Byte) (reads : List (Option (List Byte))) : Prop :=
  ∀ unread, (shell input reads).2 = .exited unread → unread = []

theorem shell_open (h : Open chunk) (hin : input.length ≤ inputSize)
    (hlen : (input ++ chunk).length ≤ inputSize) (reads : List (Option (List Byte))) :
    shell input (some chunk :: reads) = shell (input ++ chunk) reads := by
  rw [shell, readChunk_open h hin, if_pos hlen]

/-- A chunk with a line end: its characters all join the line, which is handed on. -/
theorem shell_end (h : Open pre) (he : isLineEnd e = true) (hin : input.length ≤ inputSize)
    (hlen : (input ++ (pre ++ chars post)).length ≤ inputSize)
    (hthere : Stays input (some (pre ++ e :: post) :: reads)) :
    (shell input (some (pre ++ e :: post) :: reads)).1 =
        (input ++ (pre ++ chars post)) :: (shell [] reads).1 ∧
      ((shell input (some (pre ++ e :: post) :: reads)).2 = .overrun ↔
        (shell [] reads).2 = .overrun) ∧ Stays [] reads := by
  unfold Stays at hthere
  rw [shell, readChunk_end h he hin, if_pos hlen] at hthere ⊢
  dsimp only at hthere ⊢
  by_cases hexit : command (input ++ (pre ++ chars post)) = some .exit
  · rw [if_pos hexit] at hthere ⊢
    obtain rfl := hthere reads rfl
    exact ⟨rfl, by simp [shell], fun _ hu => by cases hu⟩
  · rw [if_neg hexit] at hthere ⊢
    exact ⟨rfl, Iff.rfl, hthere⟩

theorem shell_overrun_open (h : Open chunk) (hin : input.length ≤ inputSize)
    (hlen : ¬ (input ++ chunk).length ≤ inputSize) :
    (shell input (some chunk :: reads)).2 = .overrun := by
  rw [shell, readChunk_open h hin, if_neg hlen]

theorem shell_overrun_end (h : Open pre) (he : isLineEnd e = true) (hin : input.length ≤ inputSize)
    (hlen : ¬ (input ++ (pre ++ chars post)).length ≤ inputSize) :
    (shell input (some (pre ++ e :: post) :: reads)).2 = .overrun := by
  rw [shell, readChunk_end h he hin, if_neg hlen]

/-- One line to a chunk: the shell hands on the lines of the stream. -/
theorem shell_of_oneLine : ∀ (reads : List (Option (List Byte))) {input : List Byte},
    Open input → Stays input reads → (∀ chunk, some chunk ∈ reads → OneLine chunk) →
    (∀ l ∈ lines (input ++ stream reads), l.length < inputSize) →
    (rest (input ++ stream reads)).length ≤ inputSize →
    (shell input reads).1 = lines (input ++ stream reads) ∧ (shell input reads).2 ≠ .overrun
  | [], input, hin, _, _, _, _ => by
    rw [stream, List.filterMap_nil, List.flatten_nil, List.append_nil, lines_open hin]
    exact ⟨rfl, by simp [shell]⟩
  | none :: reads, input, hin, hthere, hone, hl, hr =>
    shell_of_oneLine reads hin hthere (fun c hc => hone c (List.mem_cons_of_mem _ hc)) hl hr
  | some chunk :: reads, input, hin, hthere, hone, hl, hr => by
    have hone' : ∀ c, some c ∈ reads → OneLine c := fun c hc => hone c (List.mem_cons_of_mem _ hc)
    have hlen : input.length ≤ inputSize := length_le_first hin hl hr
    rw [stream_some] at hl hr ⊢
    rcases open_or_end chunk with hc | ⟨pre, e, post, rfl, hpre, he⟩
    · rw [← List.append_assoc] at hl hr ⊢
      have hlen' := length_le_first (hin.append hc) hl hr
      have hstep := shell_open hc hlen hlen' reads
      rw [Stays, hstep] at hthere
      rw [hstep]
      exact shell_of_oneLine reads (hin.append hc) hthere hone' hl hr
    · obtain rfl := (oneLine_end hpre he).mp (hone _ List.mem_cons_self)
      have happ : input ++ (pre ++ [e] ++ stream reads) = (input ++ pre) ++ e :: stream reads := by
        simp
      rw [happ, lines_end (hin.append hpre) he] at hl ⊢
      rw [happ, rest_end (hin.append hpre) he] at hr
      have hfirst := hl _ List.mem_cons_self
      obtain ⟨hhead, hover, hthere'⟩ := shell_end hpre he hlen
        (by simpa [chars] using Nat.le_of_lt hfirst) hthere
      obtain ⟨htail, hno⟩ := shell_of_oneLine reads open_nil hthere' hone'
        (fun l h => hl l (List.mem_cons_of_mem _ h)) hr
      refine ⟨?_, fun h => hno (hover.mp h)⟩
      rw [hhead, htail]
      simp [chars]

/-- The shell hands on at most as many strings as there are lines; if they are
the lines of the stream, no chunk held a byte after a line end. -/
theorem oneLine_of_shell : ∀ (reads : List (Option (List Byte))) {input : List Byte},
    Open input → input.length ≤ inputSize → Stays input reads →
    (shell input reads).2 ≠ .overrun →
    (shell input reads).1.length ≤ (lines (input ++ stream reads)).length ∧
    ((shell input reads).1 = lines (input ++ stream reads) →
      (∀ chunk, some chunk ∈ reads → OneLine chunk) ∧
      (rest (input ++ stream reads)).length ≤ inputSize)
  | [], input, hin, hlen, _, _ => by
    rw [stream, List.filterMap_nil, List.flatten_nil, List.append_nil, rest_open hin]
    exact ⟨Nat.zero_le _, fun _ => ⟨by simp, hlen⟩⟩
  | none :: reads, input, hin, hlen, hthere, hno => by
    obtain ⟨hle, himp⟩ := oneLine_of_shell reads hin hlen hthere hno
    refine ⟨hle, fun h => ?_⟩
    obtain ⟨hone, hr⟩ := himp h
    exact ⟨fun c hc => hone c (by simpa using hc), hr⟩
  | some chunk :: reads, input, hin, hlen, hthere, hno => by
    rw [stream_some]
    rcases open_or_end chunk with hc | ⟨pre, e, post, rfl, hpre, he⟩
    · by_cases hlen' : (input ++ chunk).length ≤ inputSize
      · have hstep := shell_open hc hlen hlen' reads
        rw [Stays, hstep] at hthere
        rw [hstep] at hno ⊢
        obtain ⟨hle, himp⟩ := oneLine_of_shell reads (hin.append hc) hlen' hthere hno
        rw [List.append_assoc] at hle himp
        refine ⟨hle, fun h => ?_⟩
        obtain ⟨hone, hr⟩ := himp h
        refine ⟨fun c hmem => ?_, hr⟩
        rcases List.mem_cons.mp hmem with heq | hmem
        · cases heq; exact oneLine_open hc
        · exact hone c hmem
      · exact absurd (shell_overrun_open hc hlen hlen') hno
    · by_cases hlen' : (input ++ (pre ++ chars post)).length ≤ inputSize
      · obtain ⟨hhead, hover, hthere'⟩ := shell_end hpre he hlen hlen' hthere
        obtain ⟨hle, himp⟩ := oneLine_of_shell reads open_nil (Nat.zero_le _)
          hthere' (fun h => hno (hover.mpr h))
        have happ : input ++ (pre ++ e :: post ++ stream reads) =
            (input ++ pre) ++ e :: (post ++ stream reads) := by simp
        rw [happ, lines_end (hin.append hpre) he, rest_end (hin.append hpre) he, hhead]
        rw [List.nil_append] at hle himp
        have hcount : (lines (post ++ stream reads)).length =
            post.countP isLineEnd + (lines (stream reads)).length := by
          rw [lines_length, lines_length, List.countP_append]
        refine ⟨by simp only [List.length_cons]; omega, fun h => ?_⟩
        obtain ⟨hfirst, hrest⟩ := List.cons.inj h
        -- the first string is its line, so only line ends follow the first one
        have hchars : chars post = [] := by simpa using hfirst
        have hends : post.countP isLineEnd = 0 := by
          have := congrArg List.length hrest
          omega
        -- and no string is left over for a further line end
        have hopen : Open post := fun c hc => by
          simpa using List.countP_eq_zero.mp hends c hc
        obtain rfl : post = [] := (chars_open hopen).symm.trans hchars
        obtain ⟨hone, hr⟩ := himp hrest
        refine ⟨fun c hmem => ?_, hr⟩
        rcases List.mem_cons.mp hmem with heq | hmem
        · cases heq; exact (oneLine_end hpre he).mpr rfl
        · exact hone c hmem
      · exact absurd (shell_overrun_end hpre he hlen hlen') hno

/-- **The shell hands on the lines of its input exactly when no chunk holds a
byte after a line end** (and the unfinished last line fits the buffer). -/
theorem shell_lines_iff (reads : List (Option (List Byte)))
    (hlines : ∀ l ∈ lines (stream reads), l.length < inputSize) (hthere : Stays [] reads) :
    ((shell [] reads).1 = lines (stream reads) ∧ (shell [] reads).2 ≠ .overrun) ↔
      (∀ chunk, some chunk ∈ reads → OneLine chunk) ∧
        (rest (stream reads)).length ≤ inputSize := by
  constructor
  · rintro ⟨heq, hno⟩
    exact (oneLine_of_shell reads open_nil (Nat.zero_le _) hthere hno).2 heq
  · rintro ⟨hone, hr⟩
    exact shell_of_oneLine reads open_nil hthere hone hlines hr

/-- Two lines in two reads. -/
theorem shell_lines_iff_two :
    (shell [] [some [97, 10], some [98, 10]]).1 = lines [97, 10, 98, 10] ∧
      (shell [] [some [97, 10], some [98, 10]]).2 ≠ .overrun := by
  have hend : (shell [] [some [97, 10], some [98, 10]]).2 = .waiting [] := by decide +kernel
  have h := shell_lines_iff [some [97, 10], some [98, 10]] (by decide +kernel) fun unread h => by
    rw [hend] at h; cases h
  refine h.mpr ⟨fun chunk hc => ?_, by decide +kernel⟩
  simp only [List.mem_cons, Option.some.injEq, List.not_mem_nil, or_false] at hc
  rcases hc with rfl | rfl <;> decide

/-- The same two lines in one read come out as the one string `ab`. -/
theorem shell_merges_lines :
    lines [97, 10, 98, 10] = [[97], [98]] ∧
      shell [] [some [97, 10, 98, 10]] = ([[97, 98]], .waiting []) := by
  decide +kernel

/-- Two ways of cutting one stream, with one line to a chunk, run the same commands. -/
theorem shell_commands_eq {reads reads' : List (Option (List Byte))}
    (hs : stream reads = stream reads')
    (hl : ∀ l ∈ lines (stream reads), l.length < inputSize)
    (hr : (rest (stream reads)).length ≤ inputSize)
    (hthere : Stays [] reads) (hone : ∀ chunk, some chunk ∈ reads → OneLine chunk)
    (hthere' : Stays [] reads') (hone' : ∀ chunk, some chunk ∈ reads' → OneLine chunk) :
    (shell [] reads).1.map command = (shell [] reads').1.map command := by
  rw [(shell_of_oneLine reads open_nil hthere hone hl hr).1,
    (shell_of_oneLine reads' open_nil hthere' hone' (hs ▸ hl) (hs ▸ hr)).1, hs]

end Shell
end UnivOS
