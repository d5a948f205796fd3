import ApduPlay.Library.TextSearch
import ApduPlay.PreferredReader

/-!
# What the reordering makes of a list

The preferred reader is looked for as a block of characters, wherever it stands
in a name. What stands before it is moved behind it, and the character after it
is lost. The wide function looks for the bytes of the narrow name.
-/

namespace ApduPlay.ReorderedReaders

open SeparatedArray ListReaders ReaderListSizes PreferredReader TextSearch

variable {χ : Type}

/-- Names as they are listed. -/
structure ListedReaders (w : CharWidth χ) where
  /-- The names in their order. -/
  names : List (List χ)
  name_ne : ∀ name ∈ names, name ≠ []
  /-- A name ends at its first zero. -/
  nul_notMem : ∀ name ∈ names, w.nul ∉ name
  /-- The length fits its variable. -/
  length_lt : (multiString w names).length < 2 ^ 32

/-- The characters of a list. There is no memory behind them. -/
def ListedReaders.memory {w : CharWidth χ} (l : ListedReaders w) : List χ := multiString w l.names

/-- The length of a list in its variable. -/
def ListedReaders.pcchReaders {w : CharWidth χ} (l : ListedReaders w) : UInt32 :=
  UInt32.ofNat l.memory.length

/-- The preferred reader in the characters of the list. -/
def preferred (w : CharWidth χ) (cfg : ListConfig χ) : List χ := cfg.readerOrderedFirst.map w.widen

instance (f : Flavour χ) (cfg : ListConfig χ) (mem : List χ) (i : ℕ) : Decidable (FoundAt f cfg mem i) :=
  inferInstanceAs (Decidable (_ = _))

variable [DecidableEq χ]

/-- The preferred reader first, if it is listed. -/
def preferredFirst (name : List χ) (names : List (List χ)) : List (List χ) :=
  if name ∈ names then name :: names.erase name else names

/-- Reordering stays inside the list and moves the preferred reader only. -/
def Reorders (f : Flavour χ) (cfg : ListConfig χ) (l : ListedReaders f.width) : Prop :=
  reorder f cfg l.memory l.pcchReaders =
    .ok (multiString f.width (preferredFirst (preferred f.width cfg) l.names))

/-- The first name with the block in it is that block, or ends with its first
occurrence there and has the block as its successor. -/
def MovesWhole (block : List χ) : List (List χ) → Prop
  | [] => False
  | name :: names =>
    match find block name with
    | none => MovesWhole block names
    | some k => name = block ∨ k + block.length = name.length ∧ names.head? = some block

/-- What the list has to be like. -/
structure ReordersWell (f : Flavour χ) (cfg : ListConfig χ) (l : ListedReaders f.width) : Prop where
  /-- The preferred name is not longer than the list. -/
  fits : cfg.readerOrderedFirst.length ≤ l.memory.length
  /-- If it is not listed, it is not found but at the start. -/
  unlisted : preferred f.width cfg ∉ l.names → StandsFirst f cfg l.memory
  /-- If it is listed and compares equal to itself, it is moved as a whole. -/
  listed : preferred f.width cfg ∈ l.names → FoundAt f cfg (preferred f.width cfg) 0 →
    MovesWhole (preferred f.width cfg) l.names
  /-- If it does not, it is the first one, and nothing is found. -/
  unseen : preferred f.width cfg ∈ l.names → ¬ FoundAt f cfg (preferred f.width cfg) 0 →
    (∀ i, i + cfg.readerOrderedFirst.length < l.memory.length → ¬ FoundAt f cfg l.memory i) ∧
      l.names.head? = some (preferred f.width cfg)

variable {w : CharWidth χ} {block name : List χ} {names : List (List χ)} {i : ℕ}

omit [DecidableEq χ] in
theorem multiString_cons (w : CharWidth χ) (name : List χ) (names : List (List χ)) :
    multiString w (name :: names) = name ++ w.nul :: multiString w names := by
  rw [multiString, List.flatMap_cons, List.append_assoc, List.append_assoc, List.singleton_append]
  rfl

/-- The block stands first among the names exactly if it is the first of them. -/
theorem multiString_eq_iff (hnames : ∀ name ∈ names, w.nul ∉ name) (hblock : w.nul ∉ block)
    (hne : block ≠ []) (names' : List (List χ)) :
    multiString w names = block ++ w.nul :: multiString w names' ↔
      names.head? = some block ∧ multiString w names.tail = multiString w names' := by
  cases names with
  | nil =>
    refine iff_of_false (fun heq => ?_) fun h => absurd h.1.symm (Option.some_ne_none block)
    have hempty : w.nul ∉ ([] : List χ) := List.not_mem_nil
    exact hne (append_cons_inj hempty hblock heq).1.symm
  | cons name names =>
    rw [multiString_cons]
    constructor
    · intro heq
      obtain ⟨rfl, hrest⟩ := append_cons_inj (hnames name List.mem_cons_self) hblock heq
      exact ⟨rfl, hrest⟩
    · rintro ⟨hhead, htail⟩
      cases hhead
      rw [List.tail_cons] at htail
      rw [htail]

/-- So the list is that with the block in front exactly if it has it there. -/
theorem multiString_erase_iff (hnames : ∀ name ∈ names, w.nul ∉ name) (hblock : w.nul ∉ block)
    (hne : block ≠ []) :
    multiString w names = block ++ w.nul :: multiString w (names.erase block) ↔ names.head? = some block := by
  rw [multiString_eq_iff hnames hblock hne]
  refine and_iff_left_of_imp fun hhead => ?_
  cases names with
  | nil => exact absurd hhead.symm (Option.some_ne_none block)
  | cons name names =>
    cases hhead
    rw [List.tail_cons, List.erase_cons_head]

/-- Moving the block out of the name it is found in. -/
theorem moved_here_iff (hname : w.nul ∉ name) (hnames : ∀ name ∈ names, w.nul ∉ name) (hblock : w.nul ∉ block)
    (hne : block ≠ []) (hfind : find block name = some i) :
    (name ++ w.nul :: multiString w names).take i ++
        (name ++ w.nul :: multiString w names).drop (i + block.length + 1) =
      multiString w ((name :: names).erase block) ↔
    name = block ∨ i + block.length = name.length ∧ names.head? = some block := by
  obtain ⟨u, v, hsplit, rfl⟩ := append_of_find hfind
  have htake : (name ++ w.nul :: multiString w names).take u.length = u := by
    rw [hsplit, List.append_assoc, List.take_left' rfl]
  have hdrop : (name ++ w.nul :: multiString w names).drop (u.length + block.length + 1) =
      (v ++ w.nul :: multiString w names).drop 1 := by
    rw [hsplit, Nat.add_assoc, List.append_assoc, List.drop_length_add_append, List.append_assoc,
      List.drop_length_add_append]
  have hlength : name.length = u.length + (block.length + v.length) := by
    rw [hsplit, List.length_append, List.length_append]
  rw [htake, hdrop]
  by_cases hwhole : name = block
  · subst hwhole
    have hu : u = [] := List.length_eq_zero_iff.mp (by omega)
    have hv : v = [] := List.length_eq_zero_iff.mp (by omega)
    rw [hu, hv, List.erase_cons_head]
    exact iff_of_true rfl (Or.inl rfl)
  rw [or_iff_right hwhole, List.erase_cons_tail (by simpa using hwhole), multiString_cons]
  cases v with
  | nil =>
    rw [List.append_nil] at hsplit
    rw [List.nil_append, List.drop_succ_cons, List.drop_zero, hsplit, List.append_assoc,
      List.append_cancel_left_eq, multiString_erase_iff hnames hblock hne, List.length_append]
    exact (and_iff_right rfl).symm
  | cons c v =>
    rw [List.length_cons] at hlength
    have hrest : w.nul ∉ u ++ v := by
      intro hmem
      apply hname
      rw [hsplit]
      rcases List.mem_append.mp hmem with hu | hv
      · exact List.mem_append_left _ hu
      · exact List.mem_append_right _ (List.mem_append_right _ (List.mem_cons_of_mem c hv))
    refine iff_of_false (fun heq => ?_) fun h => absurd h.1 (by omega)
    rw [List.cons_append, List.drop_succ_cons, List.drop_zero, ← List.append_assoc] at heq
    have hsame := congrArg List.length (append_cons_inj hrest hname heq).1
    rw [List.length_append] at hsame
    omega

/-- Moving its first occurrence moves the block exactly if that is a whole name,
or leaves the beginning of a name in front of the block. -/
theorem moved_iff (hnames : ∀ name ∈ names, w.nul ∉ name) (hblock : w.nul ∉ block) (hne : block ≠ [])
    (hfind : find block (multiString w names) = some i) :
    (multiString w names).take i ++ (multiString w names).drop (i + block.length + 1) =
      multiString w (names.erase block) ↔ MovesWhole block names := by
  induction names generalizing i with
  | nil =>
    obtain ⟨a, tail, rfl⟩ := List.exists_cons_of_ne_nil hne
    have hmem : a ∈ multiString w [] := (infix_of_find hfind).subset List.mem_cons_self
    exact absurd List.mem_cons_self ((List.mem_singleton.mp hmem) ▸ hblock)
  | cons name names ih =>
    obtain ⟨hname, hrest⟩ := List.forall_mem_cons.mp hnames
    rw [multiString_cons] at hfind ⊢
    unfold MovesWhole
    cases hhere : find block name with
    | none =>
      rw [find_append_cons hblock hne hhere] at hfind
      obtain ⟨j, hj, rfl⟩ := Option.map_eq_some_iff.mp hfind
      have hother : name ≠ block := by
        rintro rfl
        exact find_eq_none_iff.mp hhere List.infix_rfl
      have hsplit : name ++ w.nul :: multiString w names = (name ++ [w.nul]) ++ multiString w names := by
        rw [List.append_assoc, List.singleton_append]
      have hplace : j + (name.length + 1) = (name ++ [w.nul]).length + j := by
        rw [List.length_append, List.length_singleton, Nat.add_comm]
      have herase : multiString w ((name :: names).erase block) =
          (name ++ [w.nul]) ++ multiString w (names.erase block) := by
        rw [List.erase_cons_tail (by simpa using hother), multiString_cons, List.append_assoc,
          List.singleton_append]
      rw [hsplit, hplace, herase, Nat.add_assoc, Nat.add_assoc, List.take_length_add_append,
        List.drop_length_add_append, List.append_assoc, List.append_cancel_left_eq, ← Nat.add_assoc]
      exact ih hrest hj
    | some j =>
      cases (find_append_of_some hhere _).symm.trans hfind
      exact moved_here_iff hname hrest hblock hne hhere

/-- All characters have the same number of bytes, and are told apart by them. -/
structure FixedSize (w : CharWidth χ) (size : ℕ) : Prop where
  length_bytes : ∀ c, (w.bytes c).length = size
  injective : Function.Injective w.bytes

omit [DecidableEq χ] in
theorem FixedSize.length_flatMap {size : ℕ} (h : FixedSize w size) (s : List χ) :
    (s.flatMap w.bytes).length = s.length * size := by
  induction s with
  | nil => exact (Nat.zero_mul size).symm
  | cons c s ih =>
    rw [List.flatMap_cons, List.length_append, h.length_bytes, ih, List.length_cons, Nat.succ_mul,
      Nat.add_comm]

omit [DecidableEq χ] in
theorem FixedSize.flatMap_inj {size : ℕ} (h : FixedSize w size) {s t : List χ} (hlen : s.length = t.length)
    (heq : s.flatMap w.bytes = t.flatMap w.bytes) : s = t := by
  induction s generalizing t with
  | nil => exact (List.length_eq_zero_iff.mp hlen.symm).symm
  | cons c s ih =>
    cases t with
    | nil => cases hlen
    | cons d t =>
      rw [List.flatMap_cons, List.flatMap_cons] at heq
      obtain ⟨hc, hs⟩ := List.append_inj heq ((h.length_bytes c).trans (h.length_bytes d).symm)
      rw [h.injective hc, ih (Nat.succ.inj hlen) hs]

variable {f : Flavour χ} {cfg : ListConfig χ} {l : ListedReaders f.width} {size : ℕ} {s t : List χ} {j : ℕ}

omit [DecidableEq χ] in
theorem length_preferred (w : CharWidth χ) (cfg : ListConfig χ) :
    (preferred w cfg).length = cfg.readerOrderedFirst.length := List.length_map _

omit [DecidableEq χ] in
/-- Wherever the name is found stand the same characters. -/
theorem window_unique (hw : FixedSize f.width size) (hs : FoundAt f cfg s i) (ht : FoundAt f cfg t j)
    (hi : i + cfg.readerOrderedFirst.length ≤ s.length) (hj : j + cfg.readerOrderedFirst.length ≤ t.length) :
    (s.drop i).take cfg.readerOrderedFirst.length = (t.drop j).take cfg.readerOrderedFirst.length := by
  have hlength : ((s.drop i).take cfg.readerOrderedFirst.length).length =
      ((t.drop j).take cfg.readerOrderedFirst.length).length := by
    rw [List.length_take, List.length_drop, List.length_take, List.length_drop]
    omega
  apply hw.flatMap_inj hlength
  rw [FoundAt] at hs ht
  rw [hs, ht, hw.length_flatMap, hw.length_flatMap, hlength]

omit [DecidableEq χ] in
/-- If it compares equal to itself, it is found where it stands. -/
theorem foundAt_iff_window (hw : FixedSize f.width size) (hself : FoundAt f cfg (preferred f.width cfg) 0)
    (hi : i + cfg.readerOrderedFirst.length ≤ s.length) :
    FoundAt f cfg s i ↔ preferred f.width cfg <+: s.drop i := by
  have hlength := length_preferred f.width cfg
  have hwindow : ((preferred f.width cfg).drop 0).take cfg.readerOrderedFirst.length =
      preferred f.width cfg := by
    rw [List.drop_zero, ← hlength, List.take_length]
  rw [List.prefix_iff_eq_take, hlength]
  constructor
  · intro hfound
    have hsame := window_unique hw hfound hself hi (by rw [hlength]; omega)
    rw [hsame, hwindow]
  · intro hsame
    rw [FoundAt, hwindow] at hself
    rw [FoundAt, ← hsame]
    exact hself

omit [DecidableEq χ] in
/-- A listed name stands in the list, with a zero behind. -/
theorem exists_place (hmem : block ∈ names) :
    ∃ i, block <+: (multiString w names).drop i ∧ i + block.length < (multiString w names).length := by
  obtain ⟨before, behind, rfl⟩ := List.append_of_mem hmem
  have hsplit : multiString w (before ++ block :: behind) =
      (before.flatMap fun name => name ++ [w.nul]) ++ (block ++ w.nul :: multiString w behind) := by
    rw [← multiString_cons, multiString, List.flatMap_append, List.append_assoc]
    rfl
  refine ⟨(before.flatMap fun name => name ++ [w.nul]).length, ?_, ?_⟩
  · rw [hsplit, List.drop_append_length]
    exact List.prefix_append _ _
  · rw [hsplit, List.length_append, List.length_append, List.length_cons]
    omega

omit [DecidableEq χ] in
theorem ListedReaders.toNat_pcchReaders (l : ListedReaders w) : l.pcchReaders.toNat = l.memory.length :=
  UInt32.toNat_ofNat_of_lt' l.length_lt

/-- What is found is moved to where it belongs exactly if it is the name and is
moved as a whole. -/
theorem reorders_found (hw : FixedSize f.width size) (hlisted : preferred f.width cfg ∈ l.names)
    (hi : i + cfg.readerOrderedFirst.length < l.memory.length) (hfound : FoundAt f cfg l.memory i)
    (hmin : ∀ k, k < i → ¬ FoundAt f cfg l.memory k)
    (hmoved : reorder f cfg l.memory l.pcchReaders = moveToFront f cfg l.memory l.memory.length i) :
    Reorders f cfg l ↔
      FoundAt f cfg (preferred f.width cfg) 0 ∧ MovesWhole (preferred f.width cfg) l.names := by
  have hlength := length_preferred f.width cfg
  have hnul := l.nul_notMem _ hlisted
  rw [Reorders, hmoved, moveToFront_eq hi (Nat.le_refl _), Except.ok.injEq, preferredFirst, if_pos hlisted,
    multiString_cons]
  have hwindow : ((l.memory.drop i).take cfg.readerOrderedFirst.length).length =
      (preferred f.width cfg).length := by
    rw [List.length_take, List.length_drop, hlength]
    omega
  by_cases hself : FoundAt f cfg (preferred f.width cfg) 0
  · have hplace : ∀ k, k ≤ i → (FoundAt f cfg l.memory k ↔ preferred f.width cfg <+: l.memory.drop k) :=
      fun k hk => foundAt_iff_window hw hself (by omega)
    have hfirst := find_of_first ((hplace i (Nat.le_refl i)).mp hfound) fun k hk =>
      mt (hplace k (Nat.le_of_lt hk)).mpr (hmin k hk)
    have hblock : (l.memory.drop i).take cfg.readerOrderedFirst.length = preferred f.width cfg := by
      rw [← hlength]
      exact (List.prefix_iff_eq_take.mp ((hplace i (Nat.le_refl i)).mp hfound)).symm
    have hwhole := moved_iff l.nul_notMem hnul (l.name_ne _ hlisted) hfirst
    rw [hlength] at hwhole
    rw [and_iff_right hself, hblock, List.append_cancel_left_eq, List.cons.injEq, and_iff_right rfl]
    exact hwhole
  · refine iff_of_false (fun heq => hself ?_) fun h => hself h.1
    have hsame := (List.append_inj heq hwindow).1
    have htake : ((preferred f.width cfg).drop 0).take cfg.readerOrderedFirst.length =
        (l.memory.drop i).take cfg.readerOrderedFirst.length := by
      rw [List.drop_zero, ← hlength, List.take_length, hlength, hsame]
    rw [FoundAt, htake]
    exact hfound

/-- What is not found stays where it is. -/
theorem reorders_unfound (hlisted : preferred f.width cfg ∈ l.names)
    (hsame : reorder f cfg l.memory l.pcchReaders = .ok l.memory) :
    Reorders f cfg l ↔ l.names.head? = some (preferred f.width cfg) := by
  rw [Reorders, hsame, Except.ok.injEq, preferredFirst, if_pos hlisted, multiString_cons]
  exact multiString_erase_iff l.nul_notMem (l.nul_notMem _ hlisted) (l.name_ne _ hlisted)

/-- A list is reordered as it should be exactly if it is like that. -/
theorem reorders_iff_of_fixed (hw : FixedSize f.width size) (hfirst : cfg.readerOrderedFirst ≠ []) :
    Reorders f cfg l ↔ ReordersWell f cfg l := by
  have hn := l.toNat_pcchReaders
  have hlength := length_preferred f.width cfg
  by_cases hle : cfg.readerOrderedFirst.length ≤ l.memory.length
  · by_cases hlisted : preferred f.width cfg ∈ l.names
    · obtain ⟨place, hstarts, hroom⟩ := exists_place (w := f.width) hlisted
      rw [hlength] at hroom
      rcases reorder_cases l.memory (f := f) hfirst (by rw [hn]; exact hle) hn.le with
        ⟨hnone, hsame⟩ | ⟨i, hi, hfound, hmin, hmoved⟩
      · rw [hn] at hnone
        have hself : ¬ FoundAt f cfg (preferred f.width cfg) 0 := fun hself =>
          hnone place hroom ((foundAt_iff_window hw hself (Nat.le_of_lt hroom)).mpr hstarts)
        rw [reorders_unfound hlisted hsame]
        constructor
        · exact fun hhead => ⟨hle, fun hmem => absurd hlisted hmem, fun _ h => absurd h hself,
            fun _ _ => ⟨hnone, hhead⟩⟩
        · exact fun h => (h.unseen hlisted hself).2
      · rw [hn] at hi hmoved
        rw [reorders_found hw hlisted hi hfound hmin hmoved]
        constructor
        · exact fun h =>
            ⟨hle, fun hmem => absurd hlisted hmem, fun _ _ => h.2, fun _ hself => absurd h.1 hself⟩
        · intro h
          by_cases hself : FoundAt f cfg (preferred f.width cfg) 0
          · exact ⟨hself, h.listed hlisted hself⟩
          · exact absurd hfound ((h.unseen hlisted hself).1 i hi)
    · have hself := reorder_self_iff (f := f) hfirst (by rw [hn]; exact hle) hn.le
      rw [hn, List.take_length] at hself
      rw [Reorders, preferredFirst, if_neg hlisted]
      refine hself.trans ⟨fun h => ⟨hle, fun _ => h, fun hmem => absurd hmem hlisted, fun hmem =>
        absurd hmem hlisted⟩, fun h => h.unlisted hlisted⟩
  · refine iff_of_false (fun h => ?_) fun h => hle h.fits
    have hok := (reorder_ok_iff (f := f) l.memory hn.le l.length_lt).mp ⟨_, h⟩
    rw [hn] at hok
    exact hok.elim hfirst hle

theorem fixedSize_narrow : FixedSize narrow 1 := by
  refine ⟨fun _ => rfl, fun c d h => ?_⟩
  exact (List.cons.inj h).1

theorem fixedSize_wide : FixedSize wide 2 := by
  refine ⟨fun _ => rfl, fun c d h => ?_⟩
  obtain ⟨hlow, htail⟩ := List.cons.inj h
  have hhigh := (List.cons.inj htail).1
  have hc := c.toNat_lt
  have hd := d.toNat_lt
  have hlow' := congrArg UInt8.toNat hlow
  have hhigh' := congrArg UInt8.toNat hhigh
  rw [UInt16.toNat_toUInt8, UInt16.toNat_toUInt8] at hlow' hhigh'
  rw [UInt16.toNat_shiftRight, UInt16.toNat_shiftRight, Nat.shiftRight_eq_div_pow, Nat.shiftRight_eq_div_pow]
    at hhigh'
  have height : (8 : UInt16).toNat % 16 = 8 := rfl
  rw [height] at hhigh'
  apply UInt16.toNat_inj.mp
  omega

/-- A narrow name compares equal to itself. -/
theorem foundAt_preferred_narrow (cfg : ListConfig UInt8) :
    FoundAt narrowFlavour cfg (preferred narrow cfg) 0 := by
  have hsame : preferred narrow cfg = cfg.readerOrderedFirst := List.map_id _
  have hbytes : cfg.readerOrderedFirst.flatMap narrowFlavour.width.bytes = cfg.readerOrderedFirst := by
    simp [narrowFlavour, narrow]
  rw [FoundAt, hsame, List.drop_zero, List.take_length, hbytes, map_nameMemory]

/-- Both functions reorder a list as they should exactly if it is like that. -/
theorem reorders_iff (cfg : ListConfig UInt8) (cfgW : ListConfig UInt16) (l : ListedReaders narrow)
    (lW : ListedReaders wide) (hfirst : cfg.readerOrderedFirst ≠ [])
    (hfirstW : cfgW.readerOrderedFirst ≠ []) :
    (Reorders narrowFlavour cfg l ↔ ReordersWell narrowFlavour cfg l) ∧
      (Reorders wideFlavour cfgW lW ↔ ReordersWell wideFlavour cfgW lW) :=
  ⟨reorders_iff_of_fixed fixedSize_narrow hfirst, reorders_iff_of_fixed fixedSize_wide hfirstW⟩

/-- A configuration with a preferred reader. -/
def preferring (χ : Type) (first : Text) (h : first.length < 2 ^ 64) : ListConfig χ :=
  ⟨[], first, h, fun _ => 0, []⟩

/-- Two readers, whose names do not occur in each other. -/
def twoReaders : ListedReaders narrow :=
  ⟨[ascii "R1", ascii "R2"], by decide, by decide, by decide⟩

/-- The same readers in wide characters. -/
def twoReadersW : ListedReaders wide :=
  ⟨[(ascii "R1").map wide.widen, (ascii "R2").map wide.widen], by decide, by decide, by decide⟩

theorem reorders_two : Reorders narrowFlavour (preferring UInt8 (ascii "R2") (by decide)) twoReaders ∧
    Reorders wideFlavour (preferring UInt16 (ascii "R1") (by decide)) twoReadersW := by
  obtain ⟨hA, hW⟩ := reorders_iff (preferring UInt8 (ascii "R2") (by decide))
    (preferring UInt16 (ascii "R1") (by decide)) twoReaders twoReadersW (by decide) (by decide)
  have hself : ¬ FoundAt wideFlavour (preferring UInt16 (ascii "R1") (by decide))
      (preferred wide (preferring UInt16 (ascii "R1") (by decide))) 0 := by decide
  have hnone : ∀ i < 5, ¬ FoundAt wideFlavour (preferring UInt16 (ascii "R1") (by decide))
      twoReadersW.memory i := by decide
  constructor
  · refine hA.mpr ⟨by decide, fun hmem => absurd (by decide) hmem, fun _ _ => Or.inl rfl, fun _ hother => ?_⟩
    exact absurd (foundAt_preferred_narrow _) hother
  · refine hW.mpr ⟨by decide, fun hmem => absurd (by decide) hmem, fun _ hother => absurd hother hself,
      fun _ _ => ⟨fun i hi => hnone i ?_, rfl⟩⟩
    exact Nat.lt_of_add_lt_add_right hi

/-- The beginning of a name, a name that is longer than the list, and a wide name. -/
theorem not_reorders_others :
    ¬ Reorders narrowFlavour (preferring UInt8 (ascii "R") (by decide)) twoReaders ∧
      ¬ Reorders narrowFlavour (preferring UInt8 (ascii "Reader 1") (by decide)) twoReaders ∧
      ¬ Reorders wideFlavour (preferring UInt16 (ascii "R2") (by decide)) twoReadersW := by
  unfold Reorders
  decide +kernel

end ApduPlay.ReorderedReaders
