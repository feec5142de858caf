import QuestArchive.Script.Opcode

/-!
The instruction set.  A code without a known meaning still has an entry, without
parameters and named by its number, so that it can be read and written.
-/

namespace QuestArchive
namespace Opcode

def plain (code : Int) (mnemonic : String) (params : List ParamKind) : Opcode :=
  { code, mnemonic, params }

def pushes (code : Int) (mnemonic : String) (params : List ParamKind) : Opcode :=
  { code, mnemonic, params, stack := some .push }

def pops (code : Int) (mnemonic : String) (params : List ParamKind) : Opcode :=
  { code, mnemonic, params, stack := some .pop }

def known : List Opcode :=
  [plain 0x00 "nop" [],
   plain 0x01 "ret" [],
   plain 0x02 "sync" [],
   pops 0x03 "exit" [.int],
   plain 0x04 "thread" [.codeLabel],
   plain 0x05 "va_start" [],
   plain 0x06 "va_end" [],
   plain 0x07 "va_call" [.codeLabel],
   plain 0x08 "let" [.registerTuple, .registerTuple],
   plain 0x09 "leti" [.registerTuple, .int],
   plain 0x0A "letb" [.registerTuple, .byte],
   plain 0x0B "letw" [.registerTuple, .word],
   plain 0x0C "leta" [.registerTuple, .registerTuple],
   plain 0x0D "leto" [.registerTuple, .dataLabel],
   plain 0x10 "set" [.registerTuple],
   plain 0x11 "clear" [.registerTuple],
   plain 0x12 "rev" [.registerTuple],
   plain 0x13 "gset" [.word],
   plain 0x14 "gclear" [.word],
   plain 0x15 "grev" [.word],
   plain 0x16 "glet" [.word, .registerTuple],
   plain 0x17 "gget" [.word, .registerTuple],
   plain 0x18 "add" [.registerTuple, .registerTuple],
   plain 0x19 "addi" [.registerTuple, .int],
   plain 0x1A "sub" [.registerTuple, .registerTuple],
   plain 0x1B "subi" [.registerTuple, .int],
   plain 0x1C "mul" [.registerTuple, .registerTuple],
   plain 0x1D "muli" [.registerTuple, .int],
   plain 0x1E "div" [.registerTuple, .registerTuple],
   plain 0x1F "divi" [.registerTuple, .int],
   plain 0x20 "and" [.registerTuple, .registerTuple],
   plain 0x21 "andi" [.registerTuple, .int],
   plain 0x22 "or" [.registerTuple, .registerTuple],
   plain 0x23 "ori" [.registerTuple, .int],
   plain 0x24 "xor" [.registerTuple, .registerTuple],
   plain 0x25 "xori" [.registerTuple, .int],
   plain 0x26 "mod" [.registerTuple, .registerTuple],
   plain 0x27 "modi" [.registerTuple, .int],
   plain 0x28 "jmp" [.codeLabel],
   plain 0x29 "call" [.codeLabel],
   plain 0x2A "jmp_on" [.codeLabel, .registers],
   plain 0x2B "jmp_off" [.codeLabel, .registers],
   plain 0x2C "jmp_=" [.register, .register, .codeLabel],
   plain 0x2D "jmpi_=" [.register, .int, .codeLabel],
   plain 0x2E "jmp_!=" [.register, .register, .codeLabel],
   plain 0x2F "jmpi_!=" [.register, .int, .codeLabel],
   plain 0x30 "ujmp_>" [.register, .register, .codeLabel],
   plain 0x31 "ujmpi_>" [.register, .dword, .codeLabel],
   plain 0x32 "jmp_>" [.register, .register, .codeLabel],
   plain 0x33 "jmpi_>" [.register, .int, .codeLabel],
   plain 0x34 "ujmp_<" [.register, .register, .codeLabel],
   plain 0x35 "ujmpi_<" [.register, .dword, .codeLabel],
   plain 0x36 "jmp_<" [.register, .register, .codeLabel],
   plain 0x37 "jmpi_<" [.register, .int, .codeLabel],
   plain 0x38 "ujmp_>=" [.register, .register, .codeLabel],
   plain 0x39 "ujmpi_>=" [.register, .dword, .codeLabel],
   plain 0x3A "jmp_>=" [.register, .register, .codeLabel],
   plain 0x3B "jmpi_>=" [.register, .int, .codeLabel],
   plain 0x3C "ujmp_<=" [.register, .register, .codeLabel],
   plain 0x3D "ujmpi_<=" [.register, .dword, .codeLabel],
   plain 0x3E "jmp_<=" [.register, .register, .codeLabel],
   plain 0x3F "jmpi_<=" [.register, .int, .codeLabel],
   plain 0x40 "switch_jmp" [.register, .codeLabels],
   plain 0x41 "switch_call" [.register, .codeLabels],
   plain 0x42 "stack_push" [.register],
   plain 0x43 "stack_pop" [.register],
   plain 0x44 "stack_pushm" [.register, .dword],
   plain 0x45 "stack_popm" [.register, .dword],
   pushes 0x48 "arg_pushr" [.register],
   pushes 0x49 "arg_pushl" [.int],
   pushes 0x4A "arg_pushb" [.byte],
   pushes 0x4B "arg_pushw" [.word],
   pushes 0x4C "arg_pusha" [.register],
   pushes 0x4D "arg_pusho" [.dataLabel],
   pushes 0x4E "arg_pushs" [.string],
   pops 0x50 "message" [.int, .string],
   pops 0x51 "list" [.register, .string],
   plain 0x52 "fadein" [],
   plain 0x53 "fadeout" [],
   pops 0x54 "se" [.int],
   pops 0x55 "bgm" [.int],
   pops 0x58 "enable" [.int],
   pops 0x59 "disable" [.int],
   pops 0x5A "window_msg" [.string],
   pops 0x5B "add_msg" [.string],
   plain 0x5C "mesend" [],
   plain 0x5D "gettime" [.register],
   plain 0x5E "winend" [],
   pops 0x60 "npc_crt_v3" [.register],
   pops 0x61 "npc_stop" [.int],
   pops 0x62 "npc_play" [.int],
   pops 0x63 "npc_kill" [.int],
   plain 0x64 "npc_nont" [],
   plain 0x65 "npc_talk" [],
   pops 0x66 "npc_crp_v3" [.register],
   pops 0x68 "create_pipe" [.int],
   pops 0x69 "p_hpstat_v3" [.register, .int],
   pops 0x6A "p_dead_v3" [.register, .int],
   plain 0x6B "p_disablewarp" [],
   plain 0x6C "p_enablewarp" [],
   pops 0x6D "p_move_v3" [.register],
   pops 0x6E "p_look" [.int],
   plain 0x70 "p_action_disable" [],
   plain 0x71 "p_action_enable" [],
   pops 0x72 "disable_movement1" [.int],
   pops 0x73 "enable_movement1" [.int],
   plain 0x74 "p_noncol" [],
   plain 0x75 "p_col" [],
   pops 0x76 "p_setpos" [.int, .register],
   plain 0x77 "p_return_guild" [],
   pops 0x78 "p_talk_guild" [.int],
   pops 0x79 "npc_talk_pl_v3" [.register],
   pops 0x7A "npc_talk_kill" [.int],
   pops 0x7B "npc_crtpk_v3" [.register],
   pops 0x7C "npc_crppk_v3" [.register],
   pops 0x7D "npc_crptalk_v3" [.register],
   pops 0x7E "p_look_at" [.int, .int],
   pops 0x7F "npc_crp_id_v3" [.register],
   plain 0x80 "cam_quake" [],
   plain 0x81 "cam_adj" [],
   plain 0x82 "cam_zmin" [],
   plain 0x83 "cam_zmout" [],
   pops 0x84 "cam_pan_v3" [.register],
   plain 0x85 "game_lev_super" [],
   plain 0x86 "game_lev_reset" [],
   pops 0x87 "pos_pipe_v3" [.register],
   plain 0x88 "if_zone_clear" [.register, .registerTuple],
   plain 0x89 "chk_ene_num" [.register],
   plain 0x8A "unhide_obj" [.registerTuple],
   plain 0x8B "unhide_ene" [.registerTuple],
   plain 0x8C "at_coords_call" [.registerTuple],
   plain 0x8D "at_coords_talk" [.registerTuple],
   plain 0x8E "col_npcin" [.registerTuple],
   plain 0x8F "col_npcinr" [.registerTuple],
   pops 0x90 "switch_on" [.int],
   pops 0x91 "switch_off" [.int],
   pops 0x92 "playbgm_epi" [.int],
   pops 0x93 "set_mainwarp" [.int],
   plain 0x94 "set_obj_param" [.registerTuple, .registerTuple],
   pops 0x95 "set_floor_handler" [.int, .codeLabel],
   pops 0x96 "clr_floor_handler" [.int],
   plain 0x97 "col_plinaw" [.registerTuple],
   plain 0x98 "hud_hide" [],
   plain 0x99 "hud_show" [],
   plain 0x9A "cine_enable" [],
   plain 0x9B "cine_disable" [],
   plain 0xA1 "set_qt_failure" [.codeLabel],
   plain 0xA2 "set_qt_success" [.codeLabel],
   plain 0xA3 "clr_qt_failure" [],
   plain 0xA4 "clr_qt_success" [],
   plain 0xA5 "set_qt_cancel" [.codeLabel],
   plain 0xA6 "clr_qt_cancel" [],
   pops 0xA8 "pl_walk_v3" [.register],
   pops 0xB0 "pl_add_meseta" [.int, .int],
   plain 0xB1 "thread_stg" [.codeLabel],
   plain 0xB2 "del_obj_param" [.registerTuple],
   plain 0xB3 "item_create" [.registerTuple, .registerTuple],
   plain 0xB4 "item_create2" [.registerTuple, .registerTuple],
   plain 0xB5 "item_delete" [.registerTuple, .registerTuple],
   plain 0xB6 "item_delete2" [.registerTuple, .registerTuple],
   plain 0xB7 "item_check" [.registerTuple, .registerTuple],
   pops 0xB8 "setevt" [.int],
   plain 0xB9 "get_difflvl" [.registerTuple],
   plain 0xBA "set_qt_exit" [.codeLabel],
   plain 0xBB "clr_qt_exit" [],
   pops 0xC0 "particle_v3" [.register],
   pops 0xC1 "npc_text" [.int, .string],
   plain 0xC2 "npc_chkwarp" [],
   plain 0xC3 "pl_pkoff" [],
   plain 0xC4 "map_designate" [.registerTuple],
   plain 0xC5 "masterkey_on" [],
   plain 0xC6 "masterkey_off" [],
   plain 0xC7 "window_time" [],
   plain 0xC8 "winend_time" [],
   plain 0xC9 "winset_time" [.register],
   plain 0xCA "getmtime" [.register],
   pops 0xCB "set_quest_board_handler" [.int, .codeLabel, .string],
   pops 0xCC "clear_quest_board_handler" [.int],
   pops 0xCD "particle_id_v3" [.register],
   pops 0xCE "npc_crptalk_id_v3" [.register],
   plain 0xCF "npc_lang_clean" [],
   plain 0xD0 "pl_pkon" [],
   plain 0xD1 "pl_chk_item2" [.registerTuple, .registerTuple],
   plain 0xD2 "enable_mainmenu" [],
   plain 0xD3 "disable_mainmenu" [],
   plain 0xD4 "start_battlebgm" [],
   plain 0xD5 "end_battlebgm" [],
   pops 0xD6 "disp_msg_qb" [.string],
   plain 0xD7 "close_msg_qb" [],
   pops 0xD8 "set_eventflag_v3" [.int, .int],
   plain 0xD9 "sync_leti" [.registerTuple, .int],
   plain 0xDC "set_returnhunter" [],
   plain 0xDD "set_returncity" [],
   plain 0xDE "load_pvr" [],
   plain 0xDF "load_midi" [],
   pops 0xE1 "npc_param_v3" [.int, .int],
   plain 0xE2 "pad_dragon" [],
   pops 0xE3 "clear_mainwarp" [.int],
   pops 0xE4 "pcam_param_v3" [.register],
   pops 0xE5 "start_setevt_v3" [.int, .int],
   plain 0xE6 "warp_on" [],
   plain 0xE7 "warp_off" [],
   plain 0xE8 "get_slotnumber" [.registerTuple],
   plain 0xE9 "get_servernumber" [.registerTuple],
   pops 0xEA "set_eventflag2" [.int, .registerTuple],
   plain 0xEB "res" [.registerTuple, .registerTuple],
   pops 0xED "enable_bgmctrl" [.int],
   plain 0xEE "sw_send" [.registerTuple],
   plain 0xEF "create_bgmctrl" [],
   pops 0xF0 "pl_add_meseta2" [.int],
   plain 0xF3 "leti_fixed_camera_v3" [.registerTuple],
   plain 0xF4 "default_camera_pos1" [],
   pops 0xF801 "set_chat_callback" [.registerTuple, .string],
   plain 0xF808 "get_difficulty_level2" [.registerTuple],
   plain 0xF809 "get_number_of_player1" [.registerTuple],
   plain 0xF80A "get_coord_of_player" [.registerTuple, .register],
   plain 0xF80B "enable_map" [],
   plain 0xF80C "disable_map" [],
   plain 0xF80D "map_designate_ex" [.registerTuple],
   pops 0xF812 "ba_initial_floor" [.int],
   plain 0xF813 "set_ba_rules" [],
   pops 0xF822 "ba_disp_msg" [.string],
   plain 0xF8BC "set_episode" [.dword],
   pops 0xF8C0 "file_dl_req" [.int, .string],
   plain 0xF8C1 "get_dl_status" [.registerTuple],
   plain 0xF901 "dec2float" [.registerTuple, .registerTuple],
   plain 0xF902 "float2dec" [.registerTuple, .registerTuple],
   plain 0xF903 "flet" [.registerTuple, .registerTuple],
   plain 0xF904 "fleti" [.registerTuple, .float],
   plain 0xF908 "fadd" [.registerTuple, .registerTuple],
   plain 0xF909 "faddi" [.registerTuple, .float],
   plain 0xF90A "fsub" [.registerTuple, .registerTuple],
   plain 0xF90B "fsubi" [.registerTuple, .float],
   plain 0xF90C "fmul" [.registerTuple, .registerTuple],
   plain 0xF90D "fmuli" [.registerTuple, .float],
   plain 0xF90E "fdiv" [.registerTuple, .registerTuple],
   plain 0xF90F "fdivi" [.registerTuple, .float],
   plain 0xF951 "bb_map_designate" [.byte, .word, .byte, .byte],
   plain 0xF952 "bb_get_number_in_pack" [.registerTuple],
   pops 0xF95E "bb_box_create_bp" [.int, .float, .float]]

/-- The codes that exist: one byte below 0xF8, or two bytes from 0xF8 or 0xF9 on. -/
def codes : List Nat :=
  List.range 0xF8 ++ (List.range 0x200).map (0xF800 + ·)

def unknown (code : Nat) : Opcode :=
  let digits := Nat.toDigits 16 code
  let width := if code < 0x100 then 2 else 4
  { code := code
    mnemonic := String.ofList
      ("unknown_".toList ++ List.replicate (width - digits.length) '0' ++ digits) }

def table : List Opcode :=
  known ++ (codes.filter fun (code : Nat) => known.all (·.code ≠ (code : Int))).map unknown

def ofCode? (code : Nat) : Option Opcode := table.find? (·.code = code)

/-- The operation of a mnemonic, in whatever case it is written. -/
def ofMnemonic? (mnemonic : Text) : Option Opcode :=
  let name := mnemonic.lower.toString
  table.find? (·.mnemonic = name)

def pushRegister : Opcode := pushes 0x48 "arg_pushr" [.register]

def pushInt : Opcode := pushes 0x49 "arg_pushl" [.int]

def pushByte : Opcode := pushes 0x4A "arg_pushb" [.byte]

def pushWord : Opcode := pushes 0x4B "arg_pushw" [.word]

def pushRegisterTuple : Opcode := pushes 0x4C "arg_pusha" [.register]

def pushString : Opcode := pushes 0x4E "arg_pushs" [.string]

def setEpisode : Opcode := plain 0xF8BC "set_episode" [.dword]

def mapDesignate : Opcode := plain 0xF951 "bb_map_designate" [.byte, .word, .byte, .byte]

/-- A segment that ends in one of these does not run on into the next label. -/
def isTerminator (op : Opcode) : Bool := op.code = 0x01 || op.code = 0x28

end Opcode
end QuestArchive
