import SpeechDecoder.Config.Value

/-! The options that a decoder knows: name, kind, written default and purpose, in the order in which
they are listed. A key is an option name, with or without one leading dash. -/
namespace SpeechDecoder.Config

structure Entry where
  name : String
  kind : Kind
  default : Option String
  doc : String
  deriving DecidableEq, Repr

def schema : List Entry := [
  ⟨"hmm", .text, none, "Directory containing acoustic model files"⟩,
  ⟨"dict", .text, none, "Main pronunciation dictionary"⟩,
  ⟨"fdict", .text, none, "Filler (noise word) dictionary"⟩,
  ⟨"lm", .text, none, "ARPA n-gram language model"⟩,
  ⟨"mdef", .text, none, "Model definition file (defaults to <hmm>/mdef)"⟩,
  ⟨"mean", .text, none, "Gaussian means (defaults to <hmm>/means)"⟩,
  ⟨"var", .text, none, "Gaussian variances (defaults to <hmm>/variances)"⟩,
  ⟨"mixw", .text, none, "Mixture weights (defaults to <hmm>/mixture_weights)"⟩,
  ⟨"tmat", .text, none, "Transition matrices (defaults to <hmm>/transition_matrices)"⟩,
  ⟨"featparams", .text, none, "Feature parameters (defaults to <hmm>/feat.params)"⟩,
  ⟨"varfloor", .number, some "0.0001", "Gaussian variance floor"⟩,
  ⟨"mixwfloor", .number, some "0.0000001", "Mixture weight floor"⟩,
  ⟨"tmatfloor", .number, some "0.0001", "Transition probability floor"⟩,
  ⟨"samprate", .integer, some "16000", "Sampling rate"⟩,
  ⟨"frate", .integer, some "100", "Frame rate"⟩,
  ⟨"wlen", .number, some "0.025625", "Hamming window length in seconds"⟩,
  ⟨"nfft", .integer, some "0", "FFT size, or 0 to choose automatically"⟩,
  ⟨"nfilt", .integer, some "40", "Number of mel filters"⟩,
  ⟨"lowerf", .number, some "133.33334", "Lower edge of filters"⟩,
  ⟨"upperf", .number, some "6855.4976", "Upper edge of filters"⟩,
  ⟨"ncep", .integer, some "13", "Number of cepstral coefficients"⟩,
  ⟨"ceplen", .integer, some "13", "Length of the input cepstral vector"⟩,
  ⟨"alpha", .number, some "0.97", "Pre-emphasis coefficient"⟩,
  ⟨"transform", .text, some "legacy", "Cepstral transform: legacy, dct or htk"⟩,
  ⟨"lifter", .integer, some "0", "Sine liftering period, or 0 for none"⟩,
  ⟨"dither", .flag, some "no", "Add 1/2-bit noise"⟩,
  ⟨"seed", .integer, some "-1", "Dither seed; negative selects a fixed internal seed"⟩,
  ⟨"remove_dc", .flag, some "no", "Remove DC offset from each frame"⟩,
  ⟨"input_endian", .text, some "little", "Byte order of raw input (little or big)"⟩,
  ⟨"feat", .text, some "1s_c_d_dd", "Feature type: 1s_c, 1s_c_d or 1s_c_d_dd"⟩,
  ⟨"cmn", .text, some "live", "Cepstral mean normalization: none, live or batch"⟩,
  ⟨"cmninit", .text, some "40,3,-1", "Initial cepstral mean for live CMN"⟩,
  ⟨"agc", .text, some "none", "Automatic gain control; only none is supported"⟩,
  ⟨"varnorm", .flag, some "no", "Cepstral variance normalization; unsupported"⟩,
  ⟨"beam", .number, some "1e-48", "Beam applied to every frame"⟩,
  ⟨"wbeam", .number, some "7e-29", "Beam applied to word exits"⟩,
  ⟨"pbeam", .number, some "1e-48", "Beam applied to phone transitions"⟩,
  ⟨"lw", .number, some "6.5", "Language model weight"⟩,
  ⟨"wip", .number, some "0.65", "Word insertion penalty"⟩,
  ⟨"pip", .number, some "1.0", "Phone insertion penalty"⟩,
  ⟨"silprob", .number, some "0.005", "Silence word transition probability"⟩,
  ⟨"fillprob", .number, some "1e-8", "Filler word transition probability"⟩,
  ⟨"maxhmmpf", .integer, some "30000", "Maximum active words per frame, or -1"⟩,
  ⟨"maxwpf", .integer, some "-1", "Maximum word exits per frame, or -1"⟩,
  ⟨"maxnbest", .integer, some "256", "Upper bound on N-best list length"⟩,
  ⟨"ascale", .number, some "20.0", "Inverse acoustic scale for confidence"⟩,
  ⟨"compallsen", .flag, some "no", "Score every senone in every frame"⟩]

def nameOf (key : String) : String :=
  match key.toList with
  | '-' :: rest => String.ofList rest
  | _ => key

def lookup? (key : String) : Option Entry :=
  schema.find? fun e => e.name == nameOf key

def Entry.initial? (e : Entry) : Option Value := e.default.bind (Value.read? e.kind)

theorem memOfLookup {key : String} {e : Entry} (h : lookup? key = some e) : e ∈ schema :=
  List.mem_of_find?_eq_some h

theorem nameOfLookup {key : String} {e : Entry} (h : lookup? key = some e) :
    e.name = nameOf key := by
  simpa using List.find?_some h

end SpeechDecoder.Config
