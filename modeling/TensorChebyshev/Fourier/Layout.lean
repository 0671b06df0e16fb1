import TensorChebyshev.Fourier.Plan

/-!
The choice of a plan. Short lengths have plans of their own. Any other length is laid out as a
core and steps around it, each of which multiplies the length by a radix. The core takes up the
twos and threes if it can; a factor with other primes than 2, 3, 5, 7 and 11 is a core by itself.

Which layout is fast depends on how many numbers are worked on at once.

The chosen plans make up `FourierMethod.fast`, which runs for the machine's number types only.
Theorems about cosine transforms hold of any method that computes the defining sum.
-/

namespace TensorChebyshev

/-- How many numbers are worked on at once. -/
inductive Lanes where
  | two
  | four

namespace FourierPlan

def six : FourierPlan 6 := .coprime (r := 3) (l := 2) rfl .three .two

def eight : FourierPlan 8 := .grid (r := 4) (l := 2) .eighths .four .two

def nine : FourierPlan 9 := .grid (r := 3) (l := 3) (.later []) .three .three

def twelve : FourierPlan 12 := .coprime (r := 4) (l := 3) rfl .four .three

def sixteen : FourierPlan 16 := .grid (r := 4) (l := 4) .eighths .four .four

def thirtyTwo : FourierPlan 32 := .grid (r := 4) (l := 8) .eighths .four eight

/-- The plans for the columns of a table, by radix. -/
def column : (r : Nat) → FourierPlan r
  | 2 => .two
  | 3 => .three
  | 4 => .four
  | 5 => .odd 2 .first
  | 6 => six
  | 7 => .odd 3 .first
  | 8 => eight
  | 9 => nine
  | 11 => .odd 5 .opening
  | 12 => twelve
  | 16 => sixteen
  | r => .sums r

def short? (lanes : Lanes) : (n : Nat) → Option (FourierPlan n)
  | 2 => some .two
  | 3 => some (.odd 1 .leading)
  | 4 => some .four
  | 5 => some (.odd 2 (.last 2))
  | 6 => some (.coprime (r := 3) (l := 2) rfl (.odd 1 .leading) .two)
  | 7 => some (.odd 3 (.last 2))
  | 8 => some (.grid (r := 2) (l := 4) .all .two .four)
  | 9 => some nine
  | 11 => some (.odd 5 .first)
  | 12 =>
    match lanes with
    | .two => some (.grid (r := 4) (l := 3) (.later []) .four .three)
    | .four => some (.grid (r := 4) (l := 3) (.later [2]) .four .three)
  | 13 => some (.odd 6 .leading)
  | 16 => some (.grid (r := 4) (l := 4) .all .four .four)
  | 17 => some (.odd 8 .leading)
  | 18 =>
    match lanes with
    | .two => some (.grid (r := 6) (l := 3) (.later []) six .three)
    | .four => none
  | 19 => some (.odd 9 .leading)
  | 23 => some (.odd 11 .leading)
  | 24 =>
    match lanes with
    | .two => some (.grid (r := 4) (l := 6) .all .four six)
    | .four => some (.grid (r := 6) (l := 4) .all six .four)
  | 27 => some (.grid (r := 3) (l := 9) (.later []) .three nine)
  | 29 => some (.odd 14 .leading)
  | 31 => some (.odd 15 .leading)
  | 32 => some (.grid (r := 4) (l := 8) .all .four eight)
  | 36 =>
    match lanes with
    | .two => some (.grid (r := 6) (l := 6) .all six six)
    | .four => some (.grid (r := 4) (l := 9) (.later []) .four nine)
  | 48 =>
    match lanes with
    | .two => none
    | .four => some (.grid (r := 4) (l := 12) .all .four twelve)
  | 54 =>
    match lanes with
    | .two => none
    | .four => some (.grid (r := 6) (l := 9) (.later []) six nine)
  | 64 => some (.grid (r := 8) (l := 8) .all eight eight)
  | 72 =>
    match lanes with
    | .two => none
    | .four => some (.grid (r := 6) (l := 12) .all six twelve)
  | 128 => some (.grid (r := 8) (l := 16) .all eight sixteen)
  | 256 => some (.grid (r := 8) (l := 32) .all eight thirtyTwo)
  | 512 => some (.grid (r := 16) (l := 32) .all sixteen thirtyTwo)
  | _ => none

/-- A plan of any length as one of the wanted length. -/
def ofLength (n : Nat) (plan : (m : Nat) × FourierPlan m) : FourierPlan n :=
  if h : plan.1 = n then h ▸ plan.2 else .sums n

/-- One step around a plan. -/
def step (plan : (m : Nat) × FourierPlan m) (r : Nat) : (m : Nat) × FourierPlan m :=
  ⟨r * plan.1, .grid .all (column r) plan.2⟩

end FourierPlan

def exponentIn (p n : Nat) : Nat :=
  if h : 1 < p ∧ 0 < n ∧ n % p = 0 then exponentIn p (n / p) + 1 else 0
termination_by n
decreasing_by exact Nat.div_lt_self h.2.1 h.1

/-- The number with the given exponents of two and three. -/
def twosAndThrees (a b : Nat) : Nat := Nat.pow 2 a * Nat.pow 3 b

/-- The greatest factor that is a product of the primes up to eleven. -/
def smoothPart (n : Nat) : Nat :=
  twosAndThrees (exponentIn 2 n) (exponentIn 3 n) *
    (Nat.pow 5 (exponentIn 5 n) * Nat.pow 7 (exponentIn 7 n) * Nat.pow 11 (exponentIn 11 n))

/-- The radices for steps that multiply the length by `n`, the innermost first: one if that is
enough; otherwise sixes, eights or nines for the twos or threes that are left over, one radix for
the rest of those, and the primes above them, in falling order. -/
def radicesFor (n : Nat) : List Nat :=
  if n ≤ 1 then []
  else if [2, 3, 4, 5, 6, 7, 8, 9, 12, 16].contains n then [n]
  else
    let sixes := min (exponentIn 2 n) (exponentIn 3 n)
    let a := exponentIn 2 n - sixes
    let b := exponentIn 3 n - sixes
    let left := twosAndThrees (a % 3) (b % 2)
    let all := (if left = 1 then [] else [left]) ++ List.replicate (exponentIn 11 n) 11 ++
      List.replicate (b / 2) 9 ++ List.replicate (a / 3) 8 ++ List.replicate (exponentIn 7 n) 7 ++
      List.replicate sixes 6 ++ List.replicate (exponentIn 5 n) 5
    all.mergeSort (· ≥ ·)

/-- A core, given by its length, and the radices of steps around it, the innermost first. -/
structure Layout where
  core : Nat
  radices : List Nat

namespace Layout

/-- Layouts of products of twos and threes that do better than the general ones. -/
def special? : Lanes → Nat → Option Layout
  | .two, 48 => some ⟨12, [4]⟩
  | .two, 72 => some ⟨24, [3]⟩
  | .two, 96 => some ⟨12, [8]⟩
  | .two, 108 => some ⟨18, [6]⟩
  | .two, 288 => some ⟨32, [9]⟩
  | .two, 768 => some ⟨12, [8, 8]⟩
  | .four, 18 => some ⟨3, [6]⟩
  | .four, 96 => some ⟨32, [3]⟩
  | .four, 144 => some ⟨36, [4]⟩
  | .four, 192 => some ⟨48, [4]⟩
  | .four, 1536 => some ⟨48, [8, 4]⟩
  | _, _ => none

/-- The core for `2 ^ a` and at most one or two threes, such that eights are left over. -/
def manyTwos (a : Nat) : (lanes : Lanes) → (b : Nat) → Layout
  | _, 0 => ⟨if a % 3 = 0 then 512 else if a % 3 = 1 then 128 else 256, []⟩
  | .two, 1 =>
    if a % 3 = 0 then ⟨24, []⟩ else if a % 3 = 1 then ⟨32, [12]⟩ else ⟨32, [12, 16]⟩
  | .two, 2 => ⟨36, if a % 3 = 0 then [16] else if a % 3 = 1 then [4] else []⟩
  | .two, _ => ⟨36, []⟩
  | .four, 1 =>
    if a % 3 = 0 then ⟨64, [12, 16]⟩ else if a % 3 = 1 then ⟨48, []⟩ else ⟨64, []⟩
  | .four, _ => ⟨72, []⟩

/-- The core for many threes and fewer than four twos. -/
def manyThrees : (lanes : Lanes) → (a b : Nat) → Layout
  | _, 0, _ => ⟨27, []⟩
  | .two, 2, b => ⟨if b % 2 = 0 then 36 else 18, []⟩
  | .two, _, _ => ⟨18, []⟩
  | .four, 1, _ => ⟨54, []⟩
  | .four, 2, _ => ⟨36, []⟩
  | .four, _, _ => ⟨72, []⟩

/-- The core of a product of the primes up to eleven, with its first steps. -/
def ofSmooth (lanes : Lanes) (n : Nat) : Layout :=
  let a := exponentIn 2 n
  let b := exponentIn 3 n
  let part := twosAndThrees a b
  if 4 < part ∧ (FourierPlan.short? lanes part).isSome then ⟨part, []⟩
  else
    match special? lanes part with
    | some layout => layout
    | none =>
      if 4 ≤ a then manyTwos a lanes b
      else if 3 ≤ b then manyThrees lanes a b
      else if 11 ∣ n then ⟨11, []⟩
      else if 7 ∣ n then ⟨7, []⟩
      else if 5 ∣ n then ⟨5, []⟩
      else ⟨part, []⟩

end Layout

namespace FourierPlan

/-- The plan with steps around a core. -/
def around (core : (m : Nat) × FourierPlan m) (radices : List Nat) (n : Nat) : FourierPlan n :=
  let inner := radices.foldl step core
  ofLength n ((radicesFor (n / inner.1)).foldl step inner)

/-- The plan for a product of the primes up to eleven. -/
def ofSmooth (lanes : Lanes) (n : Nat) : FourierPlan n :=
  match short? lanes n with
  | some plan => plan
  | none =>
    let layout := Layout.ofSmooth lanes n
    around ⟨layout.core, (short? lanes layout.core).getD (.sums _)⟩ layout.radices n

/-- The least length for a convolution with room for a chirp: a product of twos, at least two of
them, and threes. -/
def chirpLength (n : Nat) : Nat :=
  ((List.range (2 * n)).map (2 * n - 1 + ·)).find?
    (fun m => m % 4 == 0 && twosAndThrees (exponentIn 2 m) (exponentIn 3 m) == m) |>.getD (4 * n)

def byChirp (lanes : Lanes) (n : Nat) : FourierPlan n :=
  if h : 2 * n ≤ chirpLength n + 1 then .chirp h (ofSmooth lanes (chirpLength n)) else .sums n

/-- The factor without primes up to eleven. -/
def roughPart (n : Nat) : Nat := n / smoothPart n

/-- A core for the rough part of `n` that needs no convolution. A single entry is its own
transform. -/
def roughCore? (lanes : Lanes) (n : Nat) : Option (FourierPlan (roughPart n)) :=
  if roughPart n = 1 then some (.sums _) else short? lanes (roughPart n)

/-- The plan for a length around a given core for its rough part. -/
def aroundRough (lanes : Lanes) (n : Nat) (core : FourierPlan (roughPart n)) : FourierPlan n :=
  if roughPart n = 1 then ofSmooth lanes n else around ⟨_, core⟩ [] n

/-- The core for a number without prime factors up to eleven: a plan of its own; or by a
generator, if that leads to a length that needs no further convolution; or by a chirp. -/
def ofRough (lanes : Lanes) : (n : Nat) → FourierPlan n
  | 0 => .sums 0
  | m + 1 =>
    match short? lanes (m + 1) with
    | some plan => plan
    | none =>
      let g := (generator? (m + 1)).getD 0
      match roughCore? lanes m with
      | some core =>
        if h : generates (m + 1) g = true then .cyclic g h (aroundRough lanes m core)
        else byChirp lanes (m + 1)
      | none => byChirp lanes (m + 1)

def forLength (lanes : Lanes) (n : Nat) : FourierPlan n :=
  aroundRough lanes n (ofRough lanes (roughPart n))

end FourierPlan

def FourierMethod.fast {F R : Type} [RealLine R] [Scalar F R] [Fused F] (lanes : Lanes) :
    FourierMethod F :=
  fun n x => (FourierPlan.forLength lanes n).run x

end TensorChebyshev
