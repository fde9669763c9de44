import AdaptiveRate.CommandLine.Arguments

namespace AdaptiveRate.CommandLine

def usage : Option CommandName → String
  | none =>
    "CLI tool for LoRaWAN ADR decisions and LinkADRReq payloads

Usage: adr-cli [OPTIONS] <COMMAND>

Commands:
  encode    Encode a LinkADRReq payload
  decode    Decode a hex LinkADRReq payload (without CID)
  loss      Loss percentage over a list of frame counters
  simulate  Feed synthetic uplinks through the engine and print the resulting command
  help      Print this message or the help of the given subcommand(s)

Options:
  -c, --config <CONFIG>  JSON configuration file
  -v, --verbose          Log engine decisions at debug level
  -h, --help             Print help
"
  | some .encode =>
    "Encode a LinkADRReq payload

Usage: adr-cli encode [OPTIONS] --data-rate <DATA_RATE> --tx-power <TX_POWER>

Options:
  -c, --config <CONFIG>              JSON configuration file
      --data-rate <DATA_RATE>        
      --tx-power <TX_POWER>          
  -v, --verbose                      Log engine decisions at debug level
      --ch-mask <CH_MASK>            Channel mask as 4 hex digits, e.g. 00FF [default: 00FF]
      --ch-mask-cntl <CH_MASK_CNTL>  [default: 0]
      --nb-trans <NB_TRANS>          [default: 1]
  -h, --help                         Print help
"
  | some .decode =>
    "Decode a hex LinkADRReq payload (without CID)

Usage: adr-cli decode [OPTIONS] <PAYLOAD>

Arguments:
  <PAYLOAD>  

Options:
  -c, --config <CONFIG>  JSON configuration file
  -v, --verbose          Log engine decisions at debug level
  -h, --help             Print help
"
  | some .loss =>
    "Loss percentage over a list of frame counters

Usage: adr-cli loss [OPTIONS] <F_CNTS>...

Arguments:
  <F_CNTS>...  

Options:
  -c, --config <CONFIG>  JSON configuration file
  -v, --verbose          Log engine decisions at debug level
  -h, --help             Print help
"
  | some .simulate =>
    "Feed synthetic uplinks through the engine and print the resulting command

Usage: adr-cli simulate [OPTIONS]

Options:
      --band <BAND>            [default: EU_863_870]
  -c, --config <CONFIG>        JSON configuration file
      --data-rate <DATA_RATE>  [default: SF12BW125]
  -v, --verbose                Log engine decisions at debug level
      --snr <SNR>              [default: 5.0]
      --frames <FRAMES>        [default: 20]
      --lost <LOST>            Frame counters to skip, simulating lost uplinks
      --nb-trans <NB_TRANS>    [default: 1]
  -h, --help                   Print help
"
  | some .help =>
    "Print this message or the help of the given subcommand(s)

Usage: adr-cli help [COMMAND]...

Arguments:
  [COMMAND]...  Print help for the subcommand(s)
"

end AdaptiveRate.CommandLine
