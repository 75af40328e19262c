import Mathlib.Data.List.Basic

/-!
# Self-delimiting frames

A file is a sequence of frames without lengths: an encoder `enc`, a decoder `dec` that takes one frame off the front
of a byte string, and the frames `ok` that the format can hold. A `Codec` bundles them with the two laws that tie
them together; everything else follows.

- `scan` takes frames off the front until the decoder fails, and returns them with the unread rest;
- `scan_encode`: the frames of an encoded sequence are read back, whatever follows;
- `scan_sound`: what is read is the encoding of what is accepted, so garbage is never accepted;
- `dec_torn`: a proper prefix of a frame is not a frame;
- `scan_cut`: cutting a file keeps exactly the frames that lie before the cut;
- `scan_append_encode_iff`: when frames that are appended to a file are read back after those of the file.
-/

namespace Kvdb

/-- A format for frames `α` over symbols `β`. -/
structure Codec (α β : Type) where
  enc : α → List β
  dec : List β → Option (α × List β)
  /-- The frames that the format can hold. -/
  ok : α → Prop
  enc_ne_nil : ∀ a, enc a ≠ []
  dec_enc : ∀ {a}, ok a → ∀ rest, dec (enc a ++ rest) = some (a, rest)
  enc_dec : ∀ {bs a rest}, dec bs = some (a, rest) → ok a ∧ bs = enc a ++ rest

namespace Codec

variable {α β : Type} (C : Codec α β)

/-- The encoding of a sequence of frames. -/
def encode (as : List α) : List β := as.flatMap C.enc

@[simp] theorem encode_nil : C.encode [] = [] := rfl

@[simp] theorem encode_cons (a : α) (as : List α) : C.encode (a :: as) = C.enc a ++ C.encode as := rfl

@[simp] theorem encode_append (as bs : List α) : C.encode (as ++ bs) = C.encode as ++ C.encode bs := by
  simp [encode]

variable {C}

/-- Decoding does not look past the frame. -/
theorem dec_append {bs rest : List β} {a : α} (h : C.dec bs = some (a, rest)) (more : List β) :
    C.dec (bs ++ more) = some (a, rest ++ more) := by
  obtain ⟨hok, rfl⟩ := C.enc_dec h
  rw [List.append_assoc]
  exact C.dec_enc hok _

/-- A proper prefix of a frame is not a frame. -/
theorem dec_torn {a : α} {p q : List β} (hok : C.ok a) (he : C.enc a = p ++ q) (hq : q ≠ []) :
    C.dec p = none := by
  cases h : C.dec p with
  | none => rfl
  | some r =>
    obtain ⟨a', rest⟩ := r
    have h1 := dec_append h q
    have h2 := C.dec_enc hok []
    rw [List.append_nil, he, h1] at h2
    simp only [Option.some.injEq, Prod.mk.injEq, List.append_eq_nil_iff] at h2
    exact absurd h2.2.2 hq

theorem dec_nil : C.dec [] = none := by
  cases h : C.dec [] with
  | none => rfl
  | some r =>
    have he := (C.enc_dec h).2
    have hn := C.enc_ne_nil r.1
    simp_all

/-- The decoder fails exactly where no frame begins. -/
theorem dec_eq_none_iff {bs : List β} : C.dec bs = none ↔ ∀ a, C.ok a → ¬ C.enc a <+: bs := by
  constructor
  · rintro h a hok ⟨rest, rfl⟩
    rw [C.dec_enc hok] at h
    cases h
  · intro h
    cases hd : C.dec bs with
    | none => rfl
    | some r =>
      obtain ⟨hok, he⟩ := C.enc_dec hd
      exact absurd ⟨r.2, he.symm⟩ (h r.1 hok)

theorem length_dec {bs rest : List β} {a : α} (h : C.dec bs = some (a, rest)) : rest.length < bs.length := by
  obtain ⟨_, rfl⟩ := C.enc_dec h
  have := List.length_pos_of_ne_nil (C.enc_ne_nil a)
  rw [List.length_append]
  omega

/-! ## Scanning -/

variable (C)

/-- The frames at the front and the rest at which the decoder fails, with fuel. -/
def scanFuel : Nat → List β → List α × List β
  | 0, bs => ([], bs)
  | n + 1, bs =>
    match C.dec bs with
    | none => ([], bs)
    | some (a, rest) => (a :: (scanFuel n rest).1, (scanFuel n rest).2)

/-- The frames at the front of a file and the rest at which the decoder fails. -/
def scan (bs : List β) : List α × List β := C.scanFuel bs.length bs

variable {C}

/-- A frame is at least one symbol long, so more fuel than symbols does not matter. -/
theorem scanFuel_eq : ∀ {n m : Nat} {bs : List β}, bs.length ≤ n → bs.length ≤ m →
    C.scanFuel n bs = C.scanFuel m bs
  | 0, m, bs, hn, _ => by
    obtain rfl : bs = [] := List.length_eq_zero_iff.mp (by omega)
    cases m <;> simp [scanFuel, dec_nil]
  | n + 1, 0, bs, _, hm => by
    obtain rfl : bs = [] := List.length_eq_zero_iff.mp (by omega)
    simp [scanFuel, dec_nil]
  | n + 1, m + 1, bs, hn, hm => by
    cases h : C.dec bs with
    | none => simp [scanFuel, h]
    | some r =>
      obtain ⟨a, rest⟩ := r
      have hl := length_dec h
      simp only [scanFuel, h]
      rw [scanFuel_eq (n := n) (m := m) (by omega) (by omega)]

theorem scan_none {bs : List β} (h : C.dec bs = none) : C.scan bs = ([], bs) := by
  unfold scan
  cases hl : bs.length <;> simp [scanFuel, h]

theorem scan_some {bs rest : List β} {a : α} (h : C.dec bs = some (a, rest)) :
    C.scan bs = (a :: (C.scan rest).1, (C.scan rest).2) := by
  have hl := length_dec h
  obtain ⟨n, hn⟩ : ∃ n, bs.length = n + 1 := ⟨bs.length - 1, by omega⟩
  unfold scan
  rw [hn]
  simp only [scanFuel, h]
  rw [scanFuel_eq (n := n) (m := rest.length) (by omega) (by omega)]

/-- Induction over what a scan does: it stops, or takes one frame and goes on. -/
theorem scan_induction {motive : List β → Prop} (stop : ∀ bs, C.dec bs = none → motive bs)
    (frame : ∀ bs a rest, C.dec bs = some (a, rest) → motive rest → motive bs) (bs : List β) : motive bs := by
  generalize hn : bs.length = n
  induction n using Nat.strongRecOn generalizing bs with
  | _ n ih =>
    cases h : C.dec bs with
    | none => exact stop bs h
    | some r => exact frame bs r.1 r.2 h (ih _ (by rw [← hn]; exact length_dec h) _ rfl)

/-- **Frames are read back.** -/
theorem scan_encode {as : List α} (hok : ∀ a ∈ as, C.ok a) (rest : List β) :
    C.scan (C.encode as ++ rest) = (as ++ (C.scan rest).1, (C.scan rest).2) := by
  induction as with
  | nil => rfl
  | cons a as ih =>
    have hd := C.dec_enc (hok a List.mem_cons_self) (C.encode as ++ rest)
    rw [encode_cons, List.append_assoc, scan_some hd, ih (fun b hb => hok b (List.mem_cons_of_mem _ hb))]
    rfl

theorem scan_encode_nil {as : List α} (hok : ∀ a ∈ as, C.ok a) : C.scan (C.encode as) = (as, []) := by
  have h := scan_encode hok []
  rwa [List.append_nil, scan_none dec_nil, List.append_nil] at h

/-- **Only frames are accepted**: the file starts with the encoding of what the scan accepts. -/
theorem scan_sound (bs : List β) :
    bs = C.encode (C.scan bs).1 ++ (C.scan bs).2 ∧ (∀ a ∈ (C.scan bs).1, C.ok a) ∧
      C.dec (C.scan bs).2 = none := by
  induction bs using scan_induction (C := C) with
  | stop bs h => rw [scan_none h]; exact ⟨rfl, by simp, h⟩
  | frame bs a rest h ih =>
    obtain ⟨hok, he⟩ := C.enc_dec h
    rw [scan_some h]
    refine ⟨?_, ?_, ih.2.2⟩
    · rw [encode_cons, List.append_assoc, ← ih.1]; exact he
    · intro b hb
      rcases List.mem_cons.mp hb with rfl | hb
      · exact hok
      · exact ih.2.1 b hb

/-- A scan that goes on past a file accepts what it accepts in the file first. -/
theorem scan_append (bs more : List β) :
    C.scan (bs ++ more) =
      ((C.scan bs).1 ++ (C.scan ((C.scan bs).2 ++ more)).1, (C.scan ((C.scan bs).2 ++ more)).2) := by
  obtain ⟨he, hok, _⟩ := scan_sound (C := C) bs
  conv_lhs => rw [he, List.append_assoc]
  exact scan_encode hok _

/-! ## Torn files -/

variable (C)

/-- Frames with the offsets at which they end, for a file that begins at offset `n`. -/
def ends : Nat → List α → List (α × Nat)
  | _, [] => []
  | n, a :: as => (a, n + (C.enc a).length) :: ends (n + (C.enc a).length) as

variable {C}

theorem le_ends : ∀ {as : List α} {n : Nat} {x : α × Nat}, x ∈ C.ends n as → n ≤ x.2
  | a :: as, n, x, hx => by
    rcases List.mem_cons.mp hx with rfl | hx
    · exact Nat.le_add_right _ _
    · exact Nat.le_trans (Nat.le_add_right _ _) (le_ends hx)

/-- **Torn files**: of a file that is cut, the frames that end before the cut are accepted, and no others. -/
theorem scan_cut (p q : List β) (n : Nat) :
    (C.scan p).1 = ((C.ends n (C.scan (p ++ q)).1).filter (·.2 ≤ n + p.length)).map Prod.fst := by
  generalize hbs : p ++ q = bs
  induction bs using scan_induction (C := C) generalizing p n with
  | stop bs h =>
    have hp : C.dec p = none := by
      cases hd : C.dec p with
      | none => rfl
      | some r =>
        have happ := dec_append hd q
        rw [hbs, h] at happ
        cases happ
    rw [scan_none h, scan_none hp]
    rfl
  | frame bs a rest h ih =>
    obtain ⟨hok, he⟩ := C.enc_dec h
    rw [he] at hbs
    rw [scan_some h]
    by_cases hlen : p.length < (C.enc a).length
    · -- the cut falls inside the first frame
      have hp : p = (C.enc a).take p.length := by
        have htake := congrArg (List.take p.length) hbs
        rwa [List.take_left, List.take_append_of_le_length (Nat.le_of_lt hlen)] at htake
      have hq : (C.enc a).drop p.length ≠ [] := by
        rw [ne_eq, List.drop_eq_nil_iff]
        omega
      have htorn : C.enc a = p ++ (C.enc a).drop p.length := by
        conv_lhs => rw [← List.take_append_drop p.length (C.enc a), ← hp]
      rw [scan_none (dec_torn hok htorn hq), eq_comm, List.map_eq_nil_iff, List.filter_eq_nil_iff]
      intro x hx
      have hle : n + (C.enc a).length ≤ x.2 := by
        rcases List.mem_cons.mp hx with rfl | hx
        · exact Nat.le_refl _
        · exact le_ends hx
      simp only [decide_eq_true_eq]
      omega
    · obtain ⟨p', rfl⟩ : ∃ p', p = C.enc a ++ p' := by
        refine ⟨p.drop (C.enc a).length, ?_⟩
        have htake := congrArg (List.take (C.enc a).length) hbs
        rw [List.take_left, List.take_append_of_le_length (Nat.le_of_not_lt hlen)] at htake
        conv_lhs => rw [← List.take_append_drop (C.enc a).length p, htake]
      rw [List.append_assoc, List.append_cancel_left_eq] at hbs
      rw [scan_some (C.dec_enc hok p'), ih p' (n + (C.enc a).length) hbs, ends, List.length_append, ← Nat.add_assoc,
        List.filter_cons_of_pos (by simp), List.map_cons]

/-- A file that ends somewhere inside the last frames: it holds at least the frames that are known to be complete. -/
theorem scan_between {as : List α} (hok : ∀ a ∈ as, C.ok a) {m : Nat} (hm : m ≤ as.length) {bs : List β}
    (hlow : C.encode (as.take m) <+: bs) (hhigh : bs <+: C.encode as) :
    ∃ n, m ≤ n ∧ (C.scan bs).1 = as.take n := by
  obtain ⟨more, hmore⟩ := hhigh
  obtain ⟨tail, rfl⟩ := hlow
  have hpre : (C.scan (C.encode (as.take m) ++ tail)).1 <+: as := by
    have hscan := congrArg Prod.fst (scan_append (C := C) (C.encode (as.take m) ++ tail) more)
    rw [hmore, scan_encode_nil hok] at hscan
    exact ⟨_, hscan.symm⟩
  refine ⟨(C.scan (C.encode (as.take m) ++ tail)).1.length, ?_, List.prefix_iff_eq_take.mp hpre⟩
  rw [scan_encode fun a ha => hok a (List.mem_of_mem_take ha), List.length_append, List.length_take]
  omega

/-! ## Appending to a file -/

variable (C)

/-- The file is made of whole frames. -/
def Whole (bs : List β) : Prop := ∃ as, (∀ a ∈ as, C.ok a) ∧ bs = C.encode as

/-- No frame begins here. -/
def NoFrame (bs : List β) : Prop := ∀ a, C.ok a → ¬ C.enc a <+: bs

/-- The file ends in a torn tail that the bytes of the appended frames happen to repeat, all along: moved back by the
length of the tail they are the same bytes. -/
def Echo (bs : List β) (as : List α) : Prop :=
  ∃ ds tail rest, (∀ a ∈ ds, C.ok a) ∧ bs = C.encode ds ++ tail ∧ tail ≠ [] ∧ C.NoFrame tail ∧
    tail ++ C.encode as = C.encode as ++ rest ∧ C.NoFrame rest

variable {C}

/-- **Appending**: frames appended to a file are all read back if and only if the format holds them and the file was
made of whole frames, or ends in a tail that they repeat. -/
theorem scan_append_encode_iff (bs : List β) (as : List α) :
    (C.scan (bs ++ C.encode as)).1 = (C.scan bs).1 ++ as ↔
      (∀ a ∈ as, C.ok a) ∧ (as = [] ∨ C.Whole bs ∨ C.Echo bs as) := by
  obtain ⟨hbs, hok, hstop⟩ := scan_sound (C := C) bs
  constructor
  · intro h
    rw [scan_append] at h
    have htail := List.append_cancel_left h
    obtain ⟨he, hall, hrest⟩ := scan_sound (C := C) ((C.scan bs).2 ++ C.encode as)
    rw [htail] at he hall
    refine ⟨hall, Or.inr ?_⟩
    by_cases hnil : (C.scan bs).2 = []
    · rw [hnil, List.append_nil] at hbs
      exact Or.inl ⟨_, hok, hbs⟩
    · exact Or.inr ⟨_, _, _, hok, hbs, hnil, dec_eq_none_iff.mp hstop, he, dec_eq_none_iff.mp hrest⟩
  · rintro ⟨hall, rfl | ⟨ds, hds, rfl⟩ | ⟨ds, tail, rest, hds, rfl, -, htail, he, hrest⟩⟩
    · simp
    · have hboth : ∀ a ∈ ds ++ as, C.ok a := fun a ha => (List.mem_append.mp ha).elim (hds a) (hall a)
      rw [← encode_append, scan_encode_nil hboth, scan_encode_nil hds]
    · rw [List.append_assoc, he, scan_encode hds, scan_encode hall, scan_none (dec_eq_none_iff.mpr hrest),
        scan_encode hds, scan_none (dec_eq_none_iff.mpr htail)]
      simp

end Codec

end Kvdb
