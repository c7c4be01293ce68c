import StackMachine.Proofs.Machine.Identities
import StackMachine.Proofs.Program.RoundTrip

/-!
# Loading listings and containers

A file is taken for a container by the first five bytes of the marker, which are letters, and not by
all eight. A listing may begin with these letters too, in a label or in a longer name; it is then
assembled as a listing but not loaded as one, and it is refused, for no listing has the NUL that
comes next in the marker. Every other listing is loaded as the program that it spells, just as the
file of that program is, so running and disassembling do not tell the two apart.
-/

namespace StackMachine

namespace Command

/-! ## What a listing is taken for -/

/-- A listing that begins with the letters of the container marker. -/
def BeginsLikeContainer (source : String) : Prop := "ZOEBC".toList <+: source.toList

instance (source : String) : Decidable (BeginsLikeContainer source) :=
  inferInstanceAs (Decidable (_ <+: _))

theorem marker_isPrefixOf_iff {source : String} :
    (containerMarker.take 5).isPrefixOf source.toUTF8.data.toList = true ↔
      BeginsLikeContainer source := by
  have hletters : containerMarker.take 5 = "ZOEBC".toList.map fun c => UInt8.ofNat c.toNat :=
    rfl
  rw [List.isPrefixOf_iff_prefix, hletters, prefix_toUTF8_iff (by simp)]
  rfl

theorem assembleText_of_assemble {source : String} {p : Program}
    (hp : Listing.assemble source = .ok p) (path : String) :
    assembleText path source.toUTF8.data.toList = .ok p := by
  rw [assembleText, textOfBytes?_eq_some_iff.2 rfl]
  exact mapError_eq_ok_iff.2 hp

/-- No token begins with NUL, so a listing that goes on as the marker does has no tokens. -/
theorem lexFrom_marker (offset : Nat) (cs : List Char) :
    ∃ e, Listing.lexFrom offset ("ZOEBC\x00".toList ++ cs) = .error e := by
  have hname : Listing.piece 'Z' ("OEBC\x00".toList ++ cs) = (.token (.word "ZOEBC"), 4) := rfl
  have hnul : Listing.piece '\x00' cs = (.unexpected, 0) := rfl
  have hrest (start : Nat) : ∃ e, Listing.lexFrom start ('\x00' :: cs) = .error e := by
    rw [Listing.lexFrom]
    simp only [hnul]
    exact ⟨_, rfl⟩
  show ∃ e, Listing.lexFrom offset ('Z' :: ("OEBC\x00".toList ++ cs)) = .error e
  rw [Listing.lexFrom]
  simp only [hname]
  obtain ⟨e, he⟩ := hrest _
  exact ⟨e, congrArg (Except.map _) he⟩

/-- **A listing that begins like a container is refused as one.** -/
theorem decode_listing {source : String} {p : Program} (hp : Listing.assemble source = .ok p) :
    ∃ e, Program.decode source.toUTF8.data.toList = .error e := by
  cases hq : Program.decode source.toUTF8.data.toList with
  | error e => exact ⟨e, rfl⟩
  | ok q =>
    have hmarker : containerMarker.take 6 <+: source.toUTF8.data.toList := by
      rw [(Program.eq_encode_of_decode hq).2, Program.encode_eq]
      exact (List.take_prefix 6 containerMarker).trans (List.prefix_append _ _)
    have hletters : containerMarker.take 6 =
        "ZOEBC\x00".toList.map fun c => UInt8.ofNat c.toNat := rfl
    rw [hletters, prefix_toUTF8_iff (by simp)] at hmarker
    obtain ⟨cs, hcs⟩ := hmarker
    obtain ⟨e, he⟩ := lexFrom_marker 0 cs
    rw [hcs] at he
    rw [Listing.assemble, Listing.lex, he] at hp
    contradiction

/-- A run is answered in the same way wherever its payloads are kept, if it shows the same. -/
theorem respondRun_relocated {path : String} {bytes : List UInt8} {p : Program} {config : Config}
    {a : Addresses} (hload : loadProgram path bytes = .ok p)
    (hshows : Run.ShowsAlike ⟨.start config p, {}⟩ a) (fuel : Nat) (json : Bool) :
    respondRun fuel path { config with addresses := a } json bytes =
      respondRun fuel path config json bytes := by
  simp only [respondRun, hload]
  rw [runWithin_relocated hshows, Option.map_map]
  rfl

end Command

/-- **A listing is loaded as its file is**, unless it begins like a container. When a listing is
assembled to a program without NUL in its pool, the file that is written for it is loaded as that
program. The listing itself is loaded as that program exactly when it does not begin with the
letters of the marker; running and disassembling it are then answered as for the file, and else it
is refused as a container. Where the payloads of a run are kept makes no difference to the answer
as long as the run shows the same. -/
theorem listing_loaded_as_its_file {source : String} {p : Program}
    (hp : Listing.assemble source = .ok p) (hsize : p.code.size < 2 ^ 64 - 16)
    (hnul : ∀ e ∈ p.strings, '\x00' ∉ e.text.toList) :
    let listing := source.toUTF8.data.toList
    (∀ path output, Command.respondAssemble path output listing =
      { write := some ⟨output.getD (Command.defaultOutput path), p.encode⟩ }) ∧
    (∀ path, Command.loadProgram path p.encode = .ok p) ∧
    (∀ path, Command.loadProgram path listing = .ok p ↔ ¬Command.BeginsLikeContainer source) ∧
    (¬Command.BeginsLikeContainer source → ∀ path path' fuel trace maxSteps json a,
      Command.respond fuel a (.run path trace maxSteps json) listing =
        Command.respond fuel a (.run path' trace maxSteps json) p.encode ∧
      Command.respond fuel a (.disassemble path json) listing =
        Command.respond fuel a (.disassemble path' json) p.encode) ∧
    (∀ path fuel trace maxSteps json a b,
      Run.ShowsAlike ⟨.start { trace, maxSteps, addresses := a } p, {}⟩ b →
      Command.respond fuel b (.run path trace maxSteps json) p.encode =
        Command.respond fuel a (.run path trace maxSteps json) p.encode) ∧
    (Command.BeginsLikeContainer source → ∃ e : FormatError,
      ∀ path, Command.loadProgram path listing = .error e.diagnostic) := by
  intro listing
  obtain ⟨steps, hsteps⟩ := Listing.assemble_steps hp
  have hfile (path : String) : Command.loadProgram path p.encode = .ok p := by
    rw [Command.loadProgram_encode, (Program.decode_encode_iff hsteps hsize).2 hnul]
    rfl
  have hlisting (hbegins : ¬Command.BeginsLikeContainer source) (path : String) :
      Command.loadProgram path listing = .ok p := by
    rw [Command.loadProgram, if_neg (mt Command.marker_isPrefixOf_iff.1 hbegins),
      Command.assembleText_of_assemble hp]
  have hrefused (hbegins : Command.BeginsLikeContainer source) : ∃ e : FormatError,
      ∀ path, Command.loadProgram path listing = .error e.diagnostic := by
    obtain ⟨e, he⟩ := Command.decode_listing hp
    refine ⟨e, fun path => ?_⟩
    rw [Command.loadProgram, if_pos (Command.marker_isPrefixOf_iff.2 hbegins), he]
    rfl
  refine ⟨fun path output => ?_, hfile, fun path => ⟨fun hload hbegins => ?_, fun hbegins =>
    hlisting hbegins path⟩, fun hbegins path path' fuel trace maxSteps json a => ?_,
    fun path fuel trace maxSteps json a b hshows => ?_, hrefused⟩
  · rw [Command.respondAssemble, Command.assembleText_of_assemble hp]
  · obtain ⟨e, he⟩ := hrefused hbegins
    rw [he] at hload
    contradiction
  · constructor
    · simp only [Command.respond, Command.respondRun, hfile, hlisting hbegins]
    · simp only [Command.respond, Command.respondDisassemble, hfile, hlisting hbegins]
  · have hrun := Command.respondRun_relocated (hfile path) hshows fuel json
    simpa only [Command.respond] using hrun

/-- A listing that begins with a label of the five letters is not loaded, though it is assembled as
the one without the label, which is. -/
theorem marker_label_not_loaded :
    let p : Program := { code := #[5, 0, 0, 0, 0], strings := #[.ofText "ab"] }
    (Listing.assemble "ZOEBC: PSTR \"ab\"\n" = .ok p ∧
      ∀ path, Command.loadProgram path "ZOEBC: PSTR \"ab\"\n".toUTF8.data.toList ≠ .ok p) ∧
    (Listing.assemble "PSTR \"ab\"\n" = .ok p ∧
      ∀ path, Command.loadProgram path "PSTR \"ab\"\n".toUTF8.data.toList = .ok p) := by
  intro p
  have hlabel : Listing.assemble "ZOEBC: PSTR \"ab\"\n" = .ok p := by decide +kernel
  have hplain : Listing.assemble "PSTR \"ab\"\n" = .ok p := by decide +kernel
  have hnul : ∀ e ∈ p.strings, '\x00' ∉ e.text.toList := by decide
  refine ⟨⟨hlabel, fun path hload => ?_⟩, hplain, fun path => ?_⟩
  · exact ((listing_loaded_as_its_file hlabel (by decide) hnul).2.2.1 path).1 hload (by decide)
  · exact ((listing_loaded_as_its_file hplain (by decide) hnul).2.2.1 path).2 (by decide)

end StackMachine
