import Lucix.Unpack

/-! Unpacking a whole archive. The loop looks at every block, so it unpacks exactly the
members as long as no block of data looks like a header and every member can be put
in its place. -/
namespace Lucix.Initramfs
open Ramfs Vfs
open FileIo (PageHeap)

/-- No block of data looks like a header, each member is ready to be unpacked when its turn comes,
and the kernel knows the root by its name. -/
def Clean (disk : Ramdisk) : Nat → Names → List Member → Prop
  | _, _, [] => True
  | pos, N, m :: ms =>
      (∀ k < m.blocks, ¬ LooksLikeHeader disk (pos + 512 * (1 + k))) ∧
        if m.unpacked then Ready disk pos N m ∧ Clean disk (pos + 512 * (1 + m.blocks)) (placed N m) ms
        else (m.typeflag = dirtype → NamedInFull disk pos) ∧ Clean disk (pos + 512 * (1 + m.blocks)) N ms

/-- The inode objects from `n` on that become files hold no larger size than the file will have. -/
def Fresh (mach : Machine) : Nat → List Member → Prop
  | _, [] => True
  | n, m :: ms =>
      if m.unpacked then (m.typeflag = regtype → (mach.memory n).size ≤ m.data.length) ∧
        Fresh mach (n + 1) ms
      else Fresh mach n ms

/-! ### The loop -/

section loop
variable {mach : Machine} {s s' : State} {pos fuel k : Nat}

theorem unpackLoop_step (hpos : pos < s.disk.size) : unpackLoop mach (fuel + 1) pos s =
    (unpackBlock mach s pos).bind fun (ret, s) =>
      if ret ≠ 0 then some (ret, s) else unpackLoop mach fuel (pos + 512) s := by
  rw [unpackLoop, if_pos hpos]
  rfl

theorem headersFrom_step (hpos : pos < s.disk.size) (hblock : unpackBlock mach s pos = some (0, s')) :
    headersFrom mach (fuel + 1) pos s =
      if tarValidHeader s.disk pos = some true then pos :: headersFrom mach fuel (pos + 512) s'
      else headersFrom mach fuel (pos + 512) s' := by
  rw [headersFrom, if_pos hpos, hblock]
  rfl

/-- Blocks that do not look like headers are passed over. -/
theorem unpackLoop_skip (mach : Machine) (fuel : Nat) (hsize : pos + 512 * k ≤ s.disk.size)
    (h : ∀ j < k, ¬ LooksLikeHeader s.disk (pos + 512 * j)) :
    unpackLoop mach (fuel + k) pos s = unpackLoop mach fuel (pos + 512 * k) s ∧
      headersFrom mach (fuel + k) pos s = headersFrom mach fuel (pos + 512 * k) s := by
  induction k generalizing pos with
  | zero => exact ⟨rfl, rfl⟩
  | succ k ih =>
      rw [Nat.mul_succ, ← Nat.add_assoc] at hsize
      have hin : pos + 512 ≤ s.disk.size := by omega
      have hfirst : ¬ LooksLikeHeader s.disk pos := by
        have hzero := h 0 (Nat.succ_pos k)
        rwa [Nat.mul_zero, Nat.add_zero] at hzero
      have hblock : unpackBlock mach s pos = some (0, s) := unpackBlock_skip hin hfirst
      have hvalid : tarValidHeader s.disk pos ≠ some true := by
        rw [tarValidHeader_eq hin]
        simpa using hfirst
      obtain ⟨hloop, hheaders⟩ := @ih (pos + 512) (by omega) (by
        intro j hj
        have hnext := h (j + 1) (by omega)
        rwa [show pos + 512 * (j + 1) = pos + 512 + 512 * j by omega] at hnext)
      rw [show pos + 512 * (k + 1) = pos + 512 + 512 * k by omega, ← hloop, ← hheaders]
      constructor
      · rw [← Nat.add_assoc, unpackLoop_step (by omega), hblock]
        simp
      · rw [← Nat.add_assoc, headersFrom_step (by omega) hblock, if_neg hvalid]

theorem unpackLoop_end (hpos : s.disk.size ≤ pos) : unpackLoop mach (fuel + 1) pos s = some (0, s) ∧
    headersFrom mach (fuel + 1) pos s = [] := by
  constructor
  · rw [unpackLoop, if_neg (by omega)]
  · rw [headersFrom, if_neg (by omega)]

theorem pos_le_of_mem_headersFrom {b : Nat} (h : b ∈ headersFrom mach fuel pos s) : pos ≤ b := by
  induction fuel generalizing pos s with
  | zero => simp [headersFrom] at h
  | succ fuel ih =>
      rw [headersFrom] at h
      split_ifs at h with hpos hvalid
      · rcases List.mem_cons.mp h with rfl | h
        · exact Nat.le_refl b
        · split at h
          · exact (Nat.le_add_right pos 512).trans (ih h)
          · simp at h
      · split at h
        · exact (Nat.le_add_right pos 512).trans (ih h)
        · simp at h
      · simp at h

theorem pos_lt_of_mem_dataBlocks {ms : List Member} {b : Nat} (h : b ∈ dataBlocks pos ms) : pos < b := by
  induction ms generalizing pos with
  | nil => simp [dataBlocks] at h
  | cons m ms ih =>
      rw [dataBlocks, List.mem_append, List.mem_map] at h
      rcases h with ⟨j, -, rfl⟩ | h
      · omega
      · have hlt := ih h
        omega

theorem mem_headersFrom (hsize : pos + 512 ≤ s.disk.size) (h : LooksLikeHeader s.disk pos) :
    pos ∈ headersFrom mach (fuel + 1) pos s := by
  have hvalid : tarValidHeader s.disk pos = some true := by
    rw [tarValidHeader_eq hsize]
    simpa using h
  rw [headersFrom, if_pos (by omega), if_pos hvalid]
  exact List.mem_cons_self

theorem not_looksLike_of_not_taken (hsize : pos + 512 * k ≤ s.disk.size)
    (h : ∀ j < k, pos + 512 * j ∉ headersFrom mach (fuel + k) pos s) :
    ∀ j < k, ¬ LooksLikeHeader s.disk (pos + 512 * j) := by
  intro j
  induction j using Nat.strong_induction_on with
  | _ j ih =>
      intro hj hlooks
      have hskip := unpackLoop_skip mach (fuel + (k - j)) (k := j) (by omega)
        fun i hi => ih i hi (by omega)
      have hnot := h j hj
      rw [show fuel + k = fuel + (k - j) + j by omega, hskip.2,
        show fuel + (k - j) = fuel + (k - j - 1) + 1 by omega] at hnot
      exact hnot (mem_headersFrom (by omega) hlooks)

end loop

/-! ### Members in their places -/

/-- The members that have been unpacked so far, in their places. -/
structure Unpacking (mach : Machine) (N : Names) (done : List Member) (s : State) (fs : Fs) : Prop where
  shown : Shown N s.vfs fs
  nodes_eq : N.nodes = done.map Member.node
  named : ∀ m ∈ done, m.path ≠ []
  free : ∀ i, fs.next ≤ i → (fs.inodes i).size = (mach.memory i).size
  files : ∀ m ∈ done, m.typeflag = regtype → FileOf s.heap (fs.inodes (N.inode m.path))
    (max (mach.memory (N.inode m.path)).size m.data.length) m.data

section placing
variable {mach : Machine} {s : State} {fs : Fs} {N : Names} {done : List Member} {pos : Nat} {m : Member}

theorem placed_nodes (hN : N.Sound) (h : Finds N m) : (placed N m).nodes = N.nodes ++ [m.node] := by
  obtain ⟨⟨N', w⟩, hwalk, -⟩ := h
  rw [Option.mem_def] at hwalk
  rw [placed, hwalk]
  show N'.nodes ++ [m.node] = _
  rw [(Names.walk_keeps hN hwalk).2]

theorem placed_paths (hN : N.Sound) (h : Finds N m) (hpath : m.path ≠ []) :
    (placed N m).paths = N.paths ++ [m.path] := by
  rw [Names.paths, placed_nodes hN h, List.map_append, List.map_singleton, Member.node_path hpath]
  rfl

theorem Unpacking.paths_eq (h : Unpacking mach N done s fs) : N.paths = [] :: done.map Member.path := by
  rw [Names.paths, h.nodes_eq, List.map_map]
  congr 1
  exact List.map_congr_left fun m hm => Member.node_path (h.named m hm)

theorem Unpacking.add {s' : State} {fs' : Fs} (h : Unpacking mach N done s fs) (hfinds : Finds N m)
    (hpath : m.path ≠ []) (hnew : m.path ∉ N.paths) (hshown : Shown (placed N m) s'.vfs fs')
    (hold : fs.SameOld fs') (hnext : s.heap.next ≤ s'.heap.next)
    (hpages : ∀ p < s.heap.next, (s'.heap.pages p).bytes = (s.heap.pages p).bytes)
    (hfile : m.typeflag = regtype →
      FileOf s'.heap (fs'.inodes fs.next) (max (fs.inodes fs.next).size m.data.length) m.data) :
    Unpacking mach (placed N m) (done ++ [m]) s' fs' := by
  have hpaths := placed_paths h.shown.sound hfinds hpath
  have hinode : (placed N m).inode m.path = fs.next := by
    rw [Names.inode, hpaths, List.idxOf_append_of_notMem hnew, List.idxOf_cons_self, h.shown.shows'.next_eq,
      Nat.add_zero]
  refine ⟨hshown, ?_, ?_, ?_, ?_⟩
  · rw [placed_nodes h.shown.sound hfinds, h.nodes_eq, List.map_append, List.map_singleton]
  · intro e he
    rcases List.mem_append.mp he with he | he
    · exact h.named e he
    · exact List.mem_singleton.mp he ▸ hpath
  · intro i hi
    rw [hshown.shows'.next_eq, hpaths, List.length_append, List.length_singleton,
      ← h.shown.shows'.next_eq] at hi
    obtain ⟨k, hk⟩ := hold i (by omega)
    rw [hk]
    exact h.free i (by omega)
  · intro e he hreg
    rcases List.mem_append.mp he with he | he
    · have hmem : e.path ∈ N.paths := by
        rw [h.paths_eq]
        exact List.mem_cons_of_mem _ (List.mem_map_of_mem he)
      have hsame : (placed N m).inode e.path = N.inode e.path := by
        rw [Names.inode, hpaths, List.idxOf_append_of_mem hmem, Names.inode]
      have hlt := Names.inode_lt hmem
      rw [← h.shown.shows'.next_eq] at hlt
      obtain ⟨k, hk⟩ := hold (N.inode e.path) (Nat.ne_of_lt hlt)
      rw [hsame]
      refine (h.files e he hreg).keep ?_ ?_ hnext hpages
      · rw [hk]
      · rw [hk]
    · obtain rfl := List.mem_singleton.mp he
      rw [hinode, ← h.free fs.next (Nat.le_refl _)]
      exact hfile hreg

theorem Member.unpacked_cases (h : m.unpacked = true) :
    (m.typeflag = dirtype ∧ m.path ≠ []) ∨ m.typeflag = regtype := by
  simpa [Member.unpacked] using h

theorem HeaderOf.path_ne_nil {disk : Ramdisk} (h : HeaderOf disk pos m) (hm : m.unpacked = true) :
    m.path ≠ [] := by
  rcases Member.unpacked_cases hm with ⟨-, hpath⟩ | hreg
  · exact hpath
  · obtain ⟨start, name, hname, -⟩ := h.name
    rcases hname with ⟨hdir, -⟩ | ⟨hpath, -⟩
    · rw [hreg] at hdir
      exact absurd hdir (by decide)
    · exact hpath

theorem Unpacking.step (h : Unpacking mach N done s fs) (hhead : HeaderOf s.disk pos m)
    (hinside : pos + 512 + m.data.length ≤ s.disk.size)
    (hdata : s.disk.slice (pos + 512) m.data.length = m.data) (hplain : ∀ c ∈ m.path, Plain c)
    (hm : m.unpacked = true) (hready : Ready s.disk pos N m) (hnew : m.path ∉ N.paths) :
    ∃ s' fs', unpackBlock mach s pos = some (0, s') ∧
      Unpacking mach (placed N m) (done ++ [m]) s' fs' ∧ AgreesFrom (pos + 512) s.disk s'.disk := by
  have hpath := hhead.path_ne_nil hm
  have hsize : pos + 512 ≤ s.disk.size := by omega
  obtain ⟨ds, t, p, c, hr⟩ := (hhead.reads hsize hplain hpath).resolve_right fun ⟨_, _, hlost⟩ =>
    hlost.prefixed hready.named.unprefixed
  rw [unpackBlock_header hhead hsize]
  by_cases hdir : m.typeflag = dirtype
  · have hne : m.typeflag ≠ regtype := by
      rw [hdir]
      decide
    obtain ⟨s', fs', hcall, hshown, hold, hheap, hagrees⟩ :=
      directory_placed h.shown hr hdir hready.named hready.finds hnew
    rw [if_pos hdir]
    refine ⟨s', fs', hcall, h.add hready.finds hpath hnew hshown hold ?_ ?_ ?_, hagrees⟩
    · rw [hheap]
    · rw [hheap]
      exact fun _ _ => rfl
    · exact fun hreg => absurd hreg hne
  · have hreg : m.typeflag = regtype :=
      (Member.unpacked_cases hm).resolve_left fun hd => hdir hd.1
    obtain ⟨s', fs', hcall, hshown, hmade, hagrees⟩ := @file_placed mach s fs N pos m p ds t c h.shown hhead hr
      hreg hready.named hready.finds hnew hinside hdata (hready.fits hreg)
    rw [if_neg hdir, if_pos hreg]
    exact ⟨s', fs', hcall, h.add hready.finds hpath hnew hshown hmade.old hmade.next_le hmade.pages
      fun _ => hmade.file, hagrees⟩

/-- Other members are passed over, the root only under its name. -/
theorem unpackBlock_other (mach : Machine) (hhead : HeaderOf s.disk pos m)
    (hsize : pos + 512 ≤ s.disk.size) (hm : m.unpacked = false) :
    unpackBlock mach s pos = some (0, s) ∧ (m.typeflag = dirtype → NamedInFull s.disk pos) ∨
      unpackBlock mach s pos = none ∧ m.typeflag = dirtype ∧ ¬ NamedInFull s.disk pos := by
  simp only [Member.unpacked, Bool.or_eq_false_iff, decide_eq_false_iff_not, not_and, not_not] at hm
  rw [unpackBlock_header hhead hsize]
  split_ifs with hdir hreg
  · rcases hhead.reads_root hsize (hm.1 hdir) with ⟨hnamed, hspells⟩ | ⟨ds, t, hlost⟩
    · exact .inl ⟨processDirectory_root hspells, fun _ => hnamed⟩
    · exact .inr ⟨processDirectory_lost hlost, hdir, fun hn => hlost.prefixed hn.unprefixed⟩
  · exact absurd hreg hm.2
  · exact .inl ⟨rfl, fun hd => absurd hd hdir⟩

end placing

/-! ### One member and its data -/

section round
variable {mach : Machine} {disk : Ramdisk} {s s' : State} {pos fuel : Nat} {m : Member} {ms : List Member}

/-- Where the loop stands at a header. -/
structure AtHeader (s : State) (pos fuel rest : Nat) (m : Member) : Prop where
  header : HeaderOf s.disk pos m
  data : s.disk.slice (pos + 512) m.data.length = m.data
  inside : pos + 512 * (1 + m.blocks) ≤ s.disk.size
  fuel_eq : fuel = rest + m.blocks + 1
  enough : s.disk.size < pos + 512 * (1 + m.blocks) + 512 * rest

theorem Archive.atHeader (h : Archive disk pos (m :: ms)) (ha : AgreesFrom pos disk s.disk)
    (hfuel : disk.size < pos + 512 * fuel) : ∃ rest, AtHeader s pos fuel rest m := by
  obtain ⟨hhead, hdata, hrest⟩ := h
  have hle := hrest.pos_le
  refine ⟨fuel - m.blocks - 1, hhead.of_agrees ha, ?_, ?_, ?_, ?_⟩
  · rw [ha.slice_eq (by omega), hdata]
  · rw [ha.size_eq]
    exact hle
  · omega
  · rw [ha.size_eq]
    omega

theorem AtHeader.data_inside {rest : Nat} (h : AtHeader s pos fuel rest m) :
    pos + 512 + m.data.length ≤ s.disk.size := by
  have hinside := h.inside
  have hblocks : m.data.length ≤ 512 * m.blocks := by
    rw [Member.blocks]
    omega
  omega

theorem AtHeader.next {rest : Nat} (h : AtHeader s pos fuel rest m)
    (hblock : unpackBlock mach s pos = some (0, s')) :
    unpackLoop mach fuel pos s = unpackLoop mach (rest + m.blocks) (pos + 512) s' ∧
      headersFrom mach fuel pos s = pos :: headersFrom mach (rest + m.blocks) (pos + 512) s' := by
  have hinside := h.inside
  have hvalid : tarValidHeader s.disk pos = some true := by
    rw [tarValidHeader_eq (by omega)]
    simpa using h.header.looksLike
  rw [h.fuel_eq]
  constructor
  · rw [unpackLoop_step (by omega), hblock]
    simp
  · rw [headersFrom_step (by omega) hblock, if_pos hvalid]

/-- The zero blocks at the end of an archive are passed over. -/
theorem Archive.zeros (harch : Archive disk pos []) (ha : AgreesFrom pos disk s.disk)
    (hfuel : disk.size < pos + 512 * fuel) : unpackLoop mach fuel pos s = some (0, s) := by
  obtain ⟨⟨k, hk⟩, hzero⟩ := harch
  have hsize : pos + 512 * k ≤ s.disk.size := by rw [ha.size_eq, hk]
  have hskip := unpackLoop_skip mach (fuel - k - 1 + 1) hsize fun j hj => not_looksLike_zero (by
    rw [ha.bytes_eq _ (by omega)]
    exact hzero _ (by omega) (by omega))
  rw [show fuel - k - 1 + 1 + k = fuel by omega] at hskip
  have hend := @unpackLoop_end mach s (pos + 512 * k) (fuel - k - 1) (by rw [ha.size_eq]; omega)
  rw [hskip.1, hend.1]

theorem AtHeader.skip {rest : Nat} (h : AtHeader s pos fuel rest m) (mach : Machine)
    (ha : AgreesFrom (pos + 512) s.disk s'.disk)
    (hdata : ∀ k < m.blocks, ¬ LooksLikeHeader s'.disk (pos + 512 + 512 * k)) :
    unpackLoop mach (rest + m.blocks) (pos + 512) s' =
        unpackLoop mach rest (pos + 512 * (1 + m.blocks)) s' ∧
      headersFrom mach (rest + m.blocks) (pos + 512) s' =
        headersFrom mach rest (pos + 512 * (1 + m.blocks)) s' := by
  have hinside := h.inside
  have hskip := unpackLoop_skip mach rest (s := s') (by rw [ha.size_eq]; omega) hdata
  rwa [show pos + 512 + 512 * m.blocks = pos + 512 * (1 + m.blocks) by omega] at hskip

theorem looksLike_congr {disk' : Ramdisk} (ha : AgreesFrom pos disk disk') {b : Nat} (hb : pos ≤ b) :
    LooksLikeHeader disk' b ↔ LooksLikeHeader disk b := by
  rw [LooksLikeHeader, LooksLikeHeader, ha.slice_eq (by omega)]

theorem block_pos (pos k : Nat) : pos + 512 * (1 + k) = pos + 512 + 512 * k := by omega

/-- The data of the member is not taken for a header, nor is that of the later ones. -/
theorem AtHeader.not_taken {rest : Nat} (h : AtHeader s pos fuel rest m)
    (hblock : unpackBlock mach s pos = some (0, s')) (ha : AgreesFrom (pos + 512) s.disk s'.disk)
    (hdata : ∀ k < m.blocks, ¬ LooksLikeHeader s'.disk (pos + 512 + 512 * k))
    (hrest : ∀ b ∈ dataBlocks (pos + 512 * (1 + m.blocks)) ms,
      b ∉ headersFrom mach rest (pos + 512 * (1 + m.blocks)) s') :
    ∀ b ∈ dataBlocks pos (m :: ms), b ∉ headersFrom mach fuel pos s := by
  intro b hb
  rw [(h.next hblock).2, (h.skip mach ha hdata).2, List.mem_cons, not_or]
  have hlt := pos_lt_of_mem_dataBlocks hb
  refine ⟨Nat.ne_of_gt hlt, fun hmem => ?_⟩
  rw [dataBlocks, List.mem_append, List.mem_map] at hb
  rcases hb with ⟨k, hk, rfl⟩ | hb
  · have hle := pos_le_of_mem_headersFrom hmem
    rw [List.mem_range] at hk
    omega
  · exact hrest b hb hmem

end round

/-! ### Clean archives -/

section clean
variable {mach : Machine} {disk : Ramdisk} {ms : List Member}

theorem unpackLoop_clean {s : State} {fs : Fs} {N : Names} {done : List Member} {pos fuel : Nat}
    (h : Unpacking mach N done s fs) (harch : Archive disk pos ms) (ha : AgreesFrom pos disk s.disk)
    (hclean : Clean disk pos N ms) (hplain : ∀ m ∈ ms, ∀ c ∈ m.path, Plain c)
    (hnodup : (done.map Member.path ++ ms.map Member.path).Nodup) (hfuel : disk.size < pos + 512 * fuel) :
    ∃ s' fs' N', unpackLoop mach fuel pos s = some (0, s') ∧
      Unpacking mach N' (done ++ ms.filter Member.unpacked) s' fs' ∧
      ∀ b ∈ dataBlocks pos ms, b ∉ headersFrom mach fuel pos s := by
  induction ms generalizing s fs N done pos fuel with
  | nil =>
      exact ⟨s, fs, N, harch.zeros ha hfuel, by simpa using h, by simp [dataBlocks]⟩
  | cons m ms ih =>
      obtain ⟨rest, hat⟩ := harch.atHeader ha hfuel
      obtain ⟨hblocks, hclean⟩ := hclean
      obtain ⟨-, -, harch⟩ := harch
      have hinside := hat.inside
      have henough := hat.enough
      rw [ha.size_eq] at henough
      have hlater := fun e he => hplain e (List.mem_cons_of_mem m he)
      -- the data of the member, in a ramdisk that agrees behind the header
      have hpass : ∀ s' : State, AgreesFrom (pos + 512) s.disk s'.disk →
          ∀ k < m.blocks, ¬ LooksLikeHeader s'.disk (pos + 512 + 512 * k) := by
        intro s' ha' k hk
        have hno := hblocks k hk
        rw [block_pos] at hno
        rw [looksLike_congr ha' (by omega), looksLike_congr ha (by omega)]
        exact hno
      cases hm : m.unpacked with
      | false =>
          rw [hm, if_neg (by simp)] at hclean
          obtain ⟨hroot, hclean⟩ := hclean
          have hother := unpackBlock_other mach hat.header (by omega) hm
          obtain ⟨hblock, -⟩ := hother.resolve_right fun hlost =>
            hlost.2.2 ((hroot hlost.2.1).of_agrees ha)
          have ha' := AgreesFrom.refl (pos + 512) s.disk
          obtain ⟨s', fs', N', hloop, hunpack, htaken⟩ := ih h harch (ha.mono (by omega)) hclean hlater
            (hnodup.sublist (by simp)) henough
          refine ⟨s', fs', N', ?_, ?_, hat.not_taken hblock ha' (hpass s ha') htaken⟩
          · rw [(hat.next hblock).1, (hat.skip mach ha' (hpass s ha')).1, hloop]
          · rwa [List.filter_cons_of_neg (by simp [hm])]
      | true =>
          rw [hm, if_pos rfl] at hclean
          obtain ⟨hready, hclean⟩ := hclean
          have hready' : Ready s.disk pos N m :=
            ⟨hready.named.of_agrees ha, hready.finds, hready.fits⟩
          have hnew : m.path ∉ N.paths := by
            rw [h.paths_eq, List.mem_cons, not_or]
            refine ⟨hat.header.path_ne_nil hm, fun hmem => ?_⟩
            exact (List.nodup_append.mp hnodup).2.2 _ hmem _ (by simp) rfl
          obtain ⟨s₁, fs₁, hblock, h₁, ha₁⟩ := h.step hat.header hat.data_inside hat.data
            (hplain m List.mem_cons_self) hm hready' hnew
          have hdisk : AgreesFrom (pos + 512 * (1 + m.blocks)) disk s₁.disk :=
            ((ha.mono (by omega)).trans ha₁).mono (by omega)
          obtain ⟨s', fs', N', hloop, hunpack, htaken⟩ := ih h₁ harch hdisk hclean hlater
            (by simpa using hnodup) henough
          refine ⟨s', fs', N', ?_, ?_, hat.not_taken hblock ha₁ (hpass s₁ ha₁) htaken⟩
          · rw [(hat.next hblock).1, (hat.skip mach ha₁ (hpass s₁ ha₁)).1, hloop]
          · rw [List.filter_cons_of_pos hm]
            simpa using hunpack

end clean

/-! ### Runs that return 0 -/

/-- Paths that were made for some of the members, each no lighter than that of its member. -/
inductive Outweighs : List Path → List Path → Prop
  | nil : Outweighs [] []
  | skip {xs ps : List Path} {p : Path} : Outweighs xs ps → Outweighs xs (p :: ps)
  | put {xs ps : List Path} {x p : Path} : weight p < weight x ∨ x = p → Outweighs xs ps →
      Outweighs (x :: xs) (p :: ps)

theorem Outweighs.sums {xs ps : List Path} (h : Outweighs xs ps) :
    xs.length ≤ ps.length ∧ (xs.length = ps.length → (ps.map weight).sum ≤ (xs.map weight).sum ∧
      ((xs.map weight).sum ≤ (ps.map weight).sum → xs = ps)) := by
  induction h with
  | nil => simp
  | skip _ ih =>
      rw [List.length_cons]
      exact ⟨by omega, fun heq => by omega⟩
  | put hx _ ih =>
      obtain ⟨hle, hrest⟩ := ih
      simp only [List.length_cons, List.map_cons, List.sum_cons]
      refine ⟨by omega, fun heq => ?_⟩
      obtain ⟨hsum, hsame⟩ := hrest (by omega)
      rcases hx with hlt | rfl
      · exact ⟨by omega, fun hback => by omega⟩
      · exact ⟨by omega, fun hback => by rw [hsame (by omega)]⟩

/-- If the paths are those of the members in some order, each is that of its member. -/
theorem Outweighs.eq_of_perm {xs ps : List Path} (h : Outweighs xs ps) (hperm : xs.Perm ps) : xs = ps :=
  (h.sums.2 hperm.length_eq).2 (Int.le_of_eq (hperm.map weight).sum_eq)

section returned
variable {mach : Machine} {disk : Ramdisk} {s s' : State} {fs : Fs} {N : Names} {pos fuel : Nat}
  {m : Member} {ms : List Member}

theorem unpackBlock_puts (h : Shown N s.vfs fs) (hhead : HeaderOf s.disk pos m)
    (hinside : pos + 512 + m.data.length ≤ s.disk.size) (hplain : ∀ c ∈ m.path, Plain c)
    (hm : m.unpacked = true) (hcall : unpackBlock mach s pos = some (0, s')) :
    ∃ N' fs', Shown N' s'.vfs fs' ∧ AgreesFrom (pos + 512) s.disk s'.disk ∧
      Puts s.disk pos N N' m := by
  have hsize : pos + 512 ≤ s.disk.size := by omega
  have hreads := hhead.reads hsize hplain (hhead.path_ne_nil hm)
  rw [unpackBlock_header hhead hsize] at hcall
  by_cases hdir : m.typeflag = dirtype
  · rw [if_pos hdir] at hcall
    rcases hreads with ⟨ds, t, p, c, hr⟩ | ⟨ds, t, hlost⟩
    · exact directory_puts h hr hdir hcall
    · simp [processDirectory_lost hlost] at hcall
  · have hreg : m.typeflag = regtype :=
      (Member.unpacked_cases hm).resolve_left fun hd => hdir hd.1
    rw [if_neg hdir, if_pos hreg] at hcall
    rcases hreads with ⟨ds, t, p, c, hr⟩ | ⟨ds, t, hlost⟩
    · exact file_puts h hhead hr hreg hinside hcall
    · simp [processFile_lost mach hlost] at hcall

/-- The first block of a run that returned 0. -/
theorem unpackLoop_zero (hpos : pos < s.disk.size) {s'' : State}
    (h : unpackLoop mach (fuel + 1) pos s = some (0, s'')) :
    ∃ s', unpackBlock mach s pos = some (0, s') := by
  rw [unpackLoop_step hpos] at h
  obtain ⟨⟨ret, s'⟩, hblock, hrest⟩ := Option.bind_eq_some_iff.mp h
  by_cases hret : ret = 0
  · exact ⟨s', hret ▸ hblock⟩
  · simp [hret] at hrest

/-- Whatever the block did, the ramdisk behind the header is as before. -/
theorem AtHeader.puts {rest : Nat} (hat : AtHeader s pos fuel rest m) (h : Shown N s.vfs fs)
    (hplain : ∀ c ∈ m.path, Plain c) (hcall : unpackBlock mach s pos = some (0, s')) :
    ∃ N' fs', Shown N' s'.vfs fs' ∧ AgreesFrom (pos + 512) s.disk s'.disk ∧
      if m.unpacked then Puts s.disk pos N N' m
      else N' = N ∧ (m.typeflag = dirtype → NamedInFull s.disk pos) := by
  have hinside := hat.inside
  cases hm : m.unpacked with
  | false =>
      rcases unpackBlock_other mach hat.header (by omega) hm with ⟨hblock, hnamed⟩ | ⟨hblock, -⟩
      · rw [hblock] at hcall
        obtain rfl : s = s' := by simpa using hcall
        exact ⟨N, fs, h, .refl _ _, by simpa using hnamed⟩
      · rw [hblock] at hcall
        simp at hcall
  | true =>
      obtain ⟨N', fs', h', hagrees, hputs⟩ := unpackBlock_puts h hat.header hat.data_inside hplain hm hcall
      exact ⟨N', fs', h', hagrees, by simpa using hputs⟩

/-- Conversely, where no data is taken for a header, none of the member's looks like one. -/
theorem AtHeader.of_not_taken {rest : Nat} (hat : AtHeader s pos fuel rest m)
    (hblock : unpackBlock mach s pos = some (0, s')) (ha : AgreesFrom (pos + 512) s.disk s'.disk)
    (htaken : ∀ b ∈ dataBlocks pos (m :: ms), b ∉ headersFrom mach fuel pos s) :
    (∀ k < m.blocks, ¬ LooksLikeHeader s'.disk (pos + 512 + 512 * k)) ∧
      ∀ b ∈ dataBlocks (pos + 512 * (1 + m.blocks)) ms,
        b ∉ headersFrom mach rest (pos + 512 * (1 + m.blocks)) s' := by
  have hinside := hat.inside
  have hdata : ∀ k < m.blocks, ¬ LooksLikeHeader s'.disk (pos + 512 + 512 * k) := by
    refine @not_looksLike_of_not_taken mach s' (pos + 512) rest m.blocks (by rw [ha.size_eq]; omega) ?_
    intro k hk hmem
    refine htaken (pos + 512 * (1 + k)) ?_ ?_
    · rw [dataBlocks, List.mem_append]
      exact .inl (List.mem_map_of_mem (List.mem_range.mpr hk))
    · rw [(hat.next hblock).2, block_pos]
      exact List.mem_cons_of_mem _ hmem
  refine ⟨hdata, fun b hb hmem => htaken b ?_ ?_⟩
  · rw [dataBlocks, List.mem_append]
    exact .inr hb
  · rw [(hat.next hblock).2, (hat.skip mach ha hdata).2]
    exact List.mem_cons_of_mem _ hmem

/-- In a run that returned 0 and took no data for a header, the archive was clean if the paths
that were made are those of the members. -/
theorem unpackLoop_traces {s'' : State} (h : Shown N s.vfs fs) (harch : Archive disk pos ms)
    (ha : AgreesFrom pos disk s.disk) (hplain : ∀ m ∈ ms, ∀ c ∈ m.path, Plain c)
    (hfuel : disk.size < pos + 512 * fuel) (hloop : unpackLoop mach fuel pos s = some (0, s''))
    (htaken : ∀ b ∈ dataBlocks pos ms, b ∉ headersFrom mach fuel pos s) :
    ∃ N' fs' xs, Shown N' s''.vfs fs' ∧ N'.nodes = N.nodes ++ xs ∧
      Outweighs (xs.map Node.path) ((ms.filter Member.unpacked).map Member.path) ∧
      (xs.map Node.path = (ms.filter Member.unpacked).map Member.path → Clean disk pos N ms) := by
  induction ms generalizing s fs N pos fuel with
  | nil =>
      rw [harch.zeros ha hfuel] at hloop
      obtain rfl : s = s'' := by simpa using hloop
      exact ⟨N, fs, [], h, by simp, .nil, fun _ => trivial⟩
  | cons m ms ih =>
      obtain ⟨rest, hat⟩ := harch.atHeader ha hfuel
      obtain ⟨-, -, harch⟩ := harch
      have hinside := hat.inside
      have henough := hat.enough
      rw [ha.size_eq] at henough
      have hlater := fun e he => hplain e (List.mem_cons_of_mem m he)
      obtain ⟨s₁, hblock⟩ : ∃ s₁, unpackBlock mach s pos = some (0, s₁) := by
        rw [hat.fuel_eq] at hloop
        exact unpackLoop_zero (by omega) hloop
      obtain ⟨N₁, fs₁, h₁, ha₁, hputs⟩ := hat.puts h (hplain m List.mem_cons_self) hblock
      have hdisk : AgreesFrom (pos + 512 * (1 + m.blocks)) disk s₁.disk :=
        ((ha.mono (by omega)).trans ha₁).mono (by omega)
      obtain ⟨hdata, htaken⟩ := hat.of_not_taken hblock ha₁ htaken
      have hclear : ∀ k < m.blocks, ¬ LooksLikeHeader disk (pos + 512 * (1 + k)) := by
        intro k hk
        have hno := hdata k hk
        rw [looksLike_congr ha₁ (by omega), looksLike_congr ha (by omega)] at hno
        rwa [block_pos]
      rw [(hat.next hblock).1, (hat.skip mach ha₁ hdata).1] at hloop
      obtain ⟨N', fs', xs, hshown, hnodes, hweights, hexact⟩ :=
        ih h₁ harch hdisk hlater henough hloop htaken
      cases hm : m.unpacked with
      | false =>
          rw [hm, if_neg (by simp)] at hputs
          obtain ⟨rfl, hnamed⟩ := hputs
          refine ⟨N', fs', xs, hshown, hnodes, ?_, fun heq => ⟨hclear, ?_⟩⟩
          · rwa [List.filter_cons_of_neg (by simp [hm])]
          · rw [hm, if_neg (by simp)]
            rw [List.filter_cons_of_neg (by simp [hm])] at heq
            exact ⟨fun hdir => (hnamed hdir).of_agrees ha.symm, hexact heq⟩
      | true =>
          rw [hm, if_pos rfl] at hputs
          rw [List.filter_cons_of_pos hm, List.map_cons]
          rcases hputs with hsame | ⟨x, hx, hwhere⟩
          · refine ⟨N', fs', xs, hshown, by rw [hnodes, hsame], .skip hweights, fun heq => ?_⟩
            have hlen := hweights.sums.1
            rw [heq, List.length_cons] at hlen
            omega
          · refine ⟨N', fs', x :: xs, hshown, by rw [hnodes, hx]; simp, .put (hwhere.imp_right (·.1)) hweights,
              fun heq => ⟨hclear, ?_⟩⟩
            rw [List.map_cons, List.cons.injEq] at heq
            rcases hwhere with hheavy | ⟨-, hready, rfl⟩
            · rw [heq.1] at hheavy
              exact absurd hheavy (Int.lt_irrefl _)
            · rw [hm, if_pos rfl]
              exact ⟨⟨hready.named.of_agrees ha.symm, hready.finds, hready.fits⟩, hexact heq.2⟩

end returned

/-! ### The archive and the file system -/

/-- The inode is what the archive has for the member. -/
def IsMember (fs : Fs) (heap : PageHeap) (i : Nat) (m : Member) : Prop :=
  if m.typeflag = dirtype then fs.isDir i = true
  else inoType (fs.inodes i) = sIfreg ∧ (fs.inodes i).size = m.data.length ∧
    ∀ k b, m.data[k]? = some b → (fs.inodes i).fMap.content heap k = b

/-- The file system holds one inode for each member that is a directory or a file, and nothing
else. -/
structure Contents (fs : Fs) (heap : PageHeap) (ms : List Member) : Prop where
  each : ∀ m ∈ ms, m.unpacked = true → ∃! i, Descends fs fs.root m.path i
  only : ∀ p i, p ≠ [] → Descends fs fs.root p i →
    ∃ m ∈ ms, m.unpacked = true ∧ m.path = p ∧ IsMember fs heap i m

/-- The state in which `kinit_task` calls `unpack_initramfs`. -/
def mounted (mach : Machine) (heap : PageHeap) (disk : Ramdisk) : State :=
  ⟨disk, (vfsRoot mach State.init (cstring ramfsName)).2, heap⟩

/-- Unpacking returns 0 and leaves the members in the file system, and no data is taken for a
header. -/
def Unpacks (mach : Machine) (heap : PageHeap) (disk : Ramdisk) (ms : List Member) : Prop :=
  ∃ s fs, unpackInitramfs mach (mounted mach heap disk) = some (0, s) ∧ s.vfs.rootFs = some fs ∧
    Contents fs s.heap ms ∧ ∀ b ∈ dataBlocks 0 ms, b ∉ headersTaken mach (mounted mach heap disk)

section whole
variable {mach : Machine} {heap : PageHeap} {disk : Ramdisk} {s : State} {fs : Fs} {N : Names}
  {done ms : List Member} {m : Member}

theorem mounted_unpacking (mach : Machine) (heap : PageHeap) (disk : Ramdisk) :
    ∃ fs, Unpacking mach Names.empty [] (mounted mach heap disk) fs := by
  refine ⟨(ramfsReadSb mach.memory).inoRef 0,
    ⟨rfl, Names.empty_sound, (readSb_shows mach.memory).inoRef 0⟩, rfl, by simp, ?_, by simp⟩
  intro i hi
  have hne : i ≠ 0 := by
    have hone : 1 ≤ i := hi
    omega
  simp [ramfsReadSb, Fs.inoRef, Fs.setInode, hne]

theorem fresh_iff (n : Nat) : Fresh mach n ms ↔ ∀ k m, (ms.filter Member.unpacked)[k]? = some m →
    m.typeflag = regtype → (mach.memory (n + k)).size ≤ m.data.length := by
  induction ms generalizing n with
  | nil => simp [Fresh]
  | cons e ms ih =>
      rw [Fresh]
      cases he : e.unpacked with
      | false =>
          rw [if_neg (by simp), ih, List.filter_cons_of_neg (by simp [he])]
      | true =>
          rw [if_pos rfl, ih, List.filter_cons_of_pos he]
          constructor
          · rintro ⟨hfirst, hrest⟩ k m hk
            cases k with
            | zero =>
                obtain rfl := Option.some.inj hk
                exact hfirst
            | succ k =>
                rw [show n + (k + 1) = n + 1 + k by omega]
                exact hrest k m hk
          · intro h
            refine ⟨h 0 e rfl, fun k m hk => ?_⟩
            rw [show n + 1 + k = n + (k + 1) by omega]
            exact h (k + 1) m hk

theorem Unpacking.inode_eq (h : Unpacking mach N done s fs) {k : Nat} (hk : done[k]? = some m) :
    N.inode m.path = 1 + k := by
  have hpath : N.paths[k + 1]? = some m.path := by
    rw [h.paths_eq, List.getElem?_cons_succ, List.getElem?_map, hk]
    rfl
  obtain ⟨hlt, hget⟩ := List.getElem?_eq_some_iff.mp hpath
  rw [Names.inode, ← hget, h.shown.sound.nodup.idxOf_getElem]
  omega

theorem Unpacking.isDirectory_eq (h : Unpacking mach N done s fs) (hm : m ∈ done) :
    N.isDirectory m.path = decide (m.typeflag = dirtype) := by
  have hnode : m.node ∈ N.nodes := by
    rw [h.nodes_eq]
    exact List.mem_map_of_mem hm
  have hpath := Member.node_path (h.named m hm)
  have hsame : ∀ x ∈ N.nodes, x.path = m.path → x = m.node := by
    intro x hx heq
    have hnodup := (List.nodup_cons.mp h.shown.sound.nodup).2
    exact List.inj_on_of_nodup_map hnodup hx hnode (heq.trans hpath.symm)
  rw [Bool.eq_iff_iff, Names.isDirectory]
  simp only [h.named m hm, decide_false, Bool.false_or, List.any_eq_true, Bool.and_eq_true,
    decide_eq_true_eq]
  constructor
  · rintro ⟨x, hx, heq, hdir⟩
    rw [hsame x hx heq] at hdir
    simpa [Member.node] using hdir
  · intro hdir
    exact ⟨m.node, hnode, hpath, by simpa [Member.node] using hdir⟩

theorem Unpacking.inode_mem (h : Unpacking mach N done s fs) (hm : m ∈ done) : m.path ∈ N.paths := by
  rw [h.paths_eq]
  exact List.mem_cons_of_mem _ (List.mem_map_of_mem hm)

theorem Unpacking.isMember_iff (h : Unpacking mach N done s fs) (hm : m ∈ done)
    (hkind : m.unpacked = true) :
    IsMember fs s.heap (N.inode m.path) m ↔
      (m.typeflag = regtype → (mach.memory (N.inode m.path)).size ≤ m.data.length) := by
  have htype := h.shown.shows'.types m.path (h.inode_mem hm)
  rw [h.isDirectory_eq hm] at htype
  by_cases hdir : m.typeflag = dirtype
  · have hne : m.typeflag ≠ regtype := by
      rw [hdir]
      decide
    rw [if_pos (by simpa using hdir)] at htype
    rw [IsMember, if_pos hdir, Fs.isDir, htype]
    simp [hne]
  · have hreg : m.typeflag = regtype :=
      (Member.unpacked_cases hkind).resolve_left fun hd => hdir hd.1
    rw [if_neg (by simpa using hdir)] at htype
    have hfile := h.files m hm hreg
    rw [IsMember, if_neg hdir, hfile.size_eq]
    constructor
    · rintro ⟨-, hsize, -⟩ -
      omega
    · intro hle
      have hmax := hle hreg
      exact ⟨htype, by omega, hfile.content⟩

/-- What the members in their places make of the file system. -/
theorem Unpacking.contents_iff (h : Unpacking mach N (ms.filter Member.unpacked) s fs) :
    Contents fs s.heap ms ↔ Fresh mach 1 ms := by
  have hchain : ∀ p i, Descends fs fs.root p i ↔ p ∈ N.paths ∧ i = N.inode p :=
    fun p i => h.shown.shows'.descends_iff h.shown.sound
  rw [fresh_iff]
  constructor
  · intro hc k m hk hreg
    have hmem : m ∈ ms.filter Member.unpacked := List.mem_of_getElem? hk
    have hkind := List.of_mem_filter hmem
    obtain ⟨e, he, hekind, hpath, his⟩ := hc.only m.path (N.inode m.path) (h.named m hmem)
      ((hchain _ _).mpr ⟨h.inode_mem hmem, rfl⟩)
    have hsame : e = m := by
      have hnodup := (List.nodup_cons.mp (h.paths_eq ▸ h.shown.sound.nodup)).2
      exact List.inj_on_of_nodup_map hnodup (List.mem_filter.mpr ⟨he, hekind⟩) hmem hpath
    rw [hsame] at his
    rw [← h.inode_eq hk]
    exact (h.isMember_iff hmem hkind).mp his hreg
  · intro hfresh
    constructor
    · intro m hm hkind
      have hmem : m ∈ ms.filter Member.unpacked := List.mem_filter.mpr ⟨hm, hkind⟩
      refine ⟨N.inode m.path, (hchain _ _).mpr ⟨h.inode_mem hmem, rfl⟩, fun i hi => ?_⟩
      exact ((hchain _ _).mp hi).2
    · intro p i hp hi
      obtain ⟨hmem, rfl⟩ := (hchain p i).mp hi
      rw [h.paths_eq, List.mem_cons, List.mem_map] at hmem
      obtain ⟨m, hm, rfl⟩ := hmem.resolve_left hp
      obtain ⟨hin, hkind⟩ := List.mem_filter.mp hm
      refine ⟨m, hin, hkind, rfl, (h.isMember_iff hm hkind).mpr ?_⟩
      obtain ⟨k, hk⟩ := List.getElem?_of_mem hm
      rw [h.inode_eq hk]
      exact hfresh k m hk

/-- The paths that were made are those of the members if the file system holds the members. -/
theorem Contents.paths_perm (h : Contents fs heap ms) (hshown : Shown N s.vfs fs) {xs : List Node}
    (hnodes : N.nodes = xs) (hnodup : (ms.map Member.path).Nodup) (hnamed : ∀ m ∈ ms, m.unpacked = true →
      m.path ≠ []) :
    (xs.map Node.path).Perm ((ms.filter Member.unpacked).map Member.path) := by
  have hchain : ∀ p i, Descends fs fs.root p i ↔ p ∈ N.paths ∧ i = N.inode p :=
    fun p i => hshown.shows'.descends_iff hshown.sound
  have hpaths : N.paths = [] :: xs.map Node.path := by rw [Names.paths, hnodes]
  obtain ⟨hroot, hxs⟩ := List.nodup_cons.mp (hpaths ▸ hshown.sound.nodup)
  rw [List.perm_ext_iff_of_nodup hxs
    (hnodup.sublist (List.Sublist.map _ List.filter_sublist))]
  intro p
  constructor
  · intro hp
    have hne : p ≠ [] := by
      rintro rfl
      exact hroot hp
    obtain ⟨m, hm, hkind, rfl, -⟩ := h.only p (N.inode p) hne ((hchain _ _).mpr
      ⟨hpaths ▸ List.mem_cons_of_mem _ hp, rfl⟩)
    exact List.mem_map_of_mem (List.mem_filter.mpr ⟨hm, hkind⟩)
  · intro hp
    obtain ⟨m, hm, rfl⟩ := List.mem_map.mp hp
    obtain ⟨hin, hkind⟩ := List.mem_filter.mp hm
    obtain ⟨i, hi, -⟩ := h.each m hin hkind
    have hmem := ((hchain _ _).mp hi).1
    rw [hpaths, List.mem_cons] at hmem
    exact hmem.resolve_left (hnamed m hin hkind)

theorem Archive.named {pos : Nat} (h : Archive disk pos ms) (hm : m ∈ ms) (hkind : m.unpacked = true) :
    m.path ≠ [] := by
  induction ms generalizing pos with
  | nil => simp at hm
  | cons e ms ih =>
      obtain ⟨hhead, -, hrest⟩ := h
      rcases List.mem_cons.mp hm with rfl | hm
      · exact hhead.path_ne_nil hkind
      · exact ih hrest hm

end whole

/-! ### Archives of one file -/

/-- The bytes of a header with this name, size and type. -/
def headerByte (name size : List UInt8) (typeflag : UInt8) (i : Nat) : UInt8 :=
  if i < 100 then name.getD i 0
  else if i < 108 then [48, 48, 48, 48, 55, 53, 53].getD (i - 100) 0
  else if i < 136 then size.getD (i - 124) 0
  else if i = 156 then typeflag
  else if i < 257 then 0
  else tmagic.getD (i - 257) 0

/-- The archive of `./` and `./f`, a file with one block of data. -/
def oneFileDisk (size : List UInt8) (block : Nat → UInt8) : Ramdisk where
  bytes i := ([headerByte [46, 47] [48] dirtype, headerByte [46, 47, 102] size regtype, block].getD
    (i / 512) fun _ => 0) (i % 512)
  size := 2048

theorem headerByte_start (name size : List UInt8) (typeflag : UInt8) {i : Nat} (h : 345 ≤ i) :
    headerByte name size typeflag i = 0 := by
  have hmagic : tmagic.length ≤ i - 257 := by
    show 5 ≤ i - 257
    omega
  rw [headerByte, if_neg (by omega), if_neg (by omega), if_neg (by omega), if_neg (by omega),
    if_neg (by omega), List.getD_eq_default _ _ hmagic]

/-- No header of the archive has a prefix. -/
theorem oneFile_start (size : List UInt8) (block : Nat → UInt8) {j : Nat} (hj : j < 2) :
    Field (oneFileDisk size block) (512 * j + 345) 155 [] := by
  refine ⟨by decide, ?_⟩
  rw [slice_zero]
  · rfl
  · intro k hk
    show (List.getD _ ((512 * j + 345 + k) / 512) fun _ => 0) ((512 * j + 345 + k) % 512) = 0
    rw [show (512 * j + 345 + k) / 512 = j by omega, show (512 * j + 345 + k) % 512 = 345 + k by omega]
    obtain rfl | rfl : j = 0 ∨ j = 1 := by omega
    · exact headerByte_start _ _ _ (Nat.le_add_right 345 k)
    · exact headerByte_start _ _ _ (Nat.le_add_right 345 k)

def oneFile (data : List UInt8) : List Member := [⟨[], dirtype, []⟩, ⟨[cstring [102]], regtype, data⟩]

/-- A file that holds two bytes. -/
def smallDisk : Ramdisk := oneFileDisk [50] fun i => [104, 105].getD i 0

/-- A file that holds a header of the directory `./b/`. -/
def nestedDisk : Ramdisk := oneFileDisk [49, 48, 48, 48] (headerByte [46, 47, 98, 47] [48] dirtype)

def nestedData : List UInt8 := nestedDisk.slice 1024 512

def blankMachine : Machine := ⟨fun _ => blankInode, fun _ => 0, fun _ => false⟩

theorem oneFile_header {ds data : List UInt8} {block : Nat → UInt8} (hlen : ds.length < 12)
    (hds : ∀ d ∈ ds, IsOctal d) (hval : octalValue ds = data.length)
    (hslice : (oneFileDisk ds block).slice 636 ds.length = ds)
    (hend : (oneFileDisk ds block).bytes (636 + ds.length) = 0) :
    HeaderOf (oneFileDisk ds block) 512 ⟨[cstring [102]], regtype, data⟩ := by
  have hname : Field (oneFileDisk ds block) 512 100 (cstring [46, 47, 102]) := ⟨by decide, rfl⟩
  have hstart := oneFile_start ds block (show 1 < 2 by decide)
  rw [Nat.mul_one] at hstart
  exact ⟨⟨[], cstring [46, 47, 102], .inr ⟨List.cons_ne_nil _ _, rfl⟩, hname, hstart⟩,
    ⟨[48, 48, 48, 48, 55, 53, 53], by decide, by decide, by decide +kernel, rfl⟩,
    ⟨ds, hlen, hds, hval, hslice, .inl hend⟩, rfl, rfl⟩

theorem oneFile_archive {ds data : List UInt8} {block : Nat → UInt8}
    (hblocks : (data.length + 511) / 512 = 1)
    (hfile : HeaderOf (oneFileDisk ds block) 512 ⟨[cstring [102]], regtype, data⟩)
    (hdata : (oneFileDisk ds block).slice 1024 data.length = data) :
    Archive (oneFileDisk ds block) 0 (oneFile data) := by
  have hroot := oneFile_start ds block (show 0 < 2 by decide)
  rw [Nat.mul_zero] at hroot
  refine ⟨⟨⟨[], cstring [46, 47], .inl ⟨rfl, rfl⟩, ⟨by decide, rfl⟩, hroot⟩,
    ⟨[48, 48, 48, 48, 55, 53, 53], by decide, by decide, by decide +kernel, rfl⟩,
    ⟨[48], by decide, by decide +kernel, rfl, rfl, .inl rfl⟩, rfl, rfl⟩, rfl, hfile, hdata, ?_⟩
  show Archive _ (512 + 512 * (1 + (data.length + 511) / 512)) []
  rw [hblocks]
  refine ⟨⟨1, rfl⟩, fun i hi _ => ?_⟩
  replace hi : 1536 ≤ i := hi
  show (List.getD _ (i / 512) fun _ => 0) (i % 512) = 0
  rw [List.getD_eq_default]
  show 3 ≤ i / 512
  omega

theorem oneFile_listed (data : List UInt8) : Listed (oneFile data) := by
  constructor
  · intro m hm c hc
    simp only [oneFile, List.mem_cons, List.not_mem_nil, or_false] at hm
    rcases hm with rfl | rfl
    · simp at hc
    · obtain rfl : c = cstring [102] := by simpa using hc
      exact ⟨by decide, by decide, by decide⟩
  · show [[], [cstring [102]]].Nodup
    decide
  · intro before m after hms hpath
    have hm : m ∈ oneFile data := by simp [hms]
    simp only [oneFile, List.mem_cons, List.not_mem_nil, or_false] at hm
    rcases hm with rfl | rfl <;> exact absurd rfl hpath

end Lucix.Initramfs
